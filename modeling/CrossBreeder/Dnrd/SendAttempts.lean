import CrossBreeder.Dnrd.ServerSelection
import Mathlib.Data.Finset.Card

/-!
# The end of a send

The loop of `send2current` deactivates a server that could not be sent to and goes on with the next
active one. The set of active servers gets smaller with each step (`activeSet_deactivateCurrent`),
and the current server is always one of them, so that in the end a send succeeds or all have been
tried (`mem_attempts`). `send2current_ends_iff` has the exact condition, for an endless sequence of
outcomes of which the loop takes as many as it needs.
-/

namespace CrossBreeder.Dnrd

open Foundation

/-- The servers that the loop of `send2current` sends to, in the order of its sends. -/
def attempts (cfg : Config) (now d : ℕ) : List Bool → List DomNode → List ℕ
  | [], _ => []
  | sent :: sends, doms =>
    match (doms.getD d default).current with
    | none => []
    | some c =>
      c :: if sent then []
        else attempts cfg now d sends
          (if cfg.reactivateInterval ≠ 0 then doms.modify d (deactivateCurrent now) else doms)

def firstSends (sends : ℕ → Bool) (n : ℕ) : List Bool := (List.range n).map sends

/-! ### Deactivation -/

def activeSet (ring : List SrvNode) : Finset ℕ := {k ∈ Finset.range ring.length | ActiveAt ring k}

theorem mem_activeSet {ring : List SrvNode} {k : ℕ} : k ∈ activeSet ring ↔ ActiveAt ring k := by
  rw [activeSet, Finset.mem_filter, Finset.mem_range]
  exact ⟨fun h ↦ h.2, fun h ↦ ⟨h.lt_length, h⟩⟩

variable {d : DomNode} {c : ℕ}

/-- The nodes other than the current one stay as they are; the current one becomes inactive, unless
the clock is at zero. -/
theorem activeAt_deactivateCurrent (hcurrent : d.current = some c) (hc : c < d.srvlist.length)
    (now k : ℕ) :
    ActiveAt (deactivateCurrent now d).srvlist k ↔
      if k = c then now = 0 else ActiveAt d.srvlist k := by
  have hring : (deactivateCurrent now d).srvlist = d.srvlist.modify c fun s ↦
    { s with inactive := now } := by
    simp only [deactivateCurrent, setCurrent, markInactive, hcurrent]
  unfold ActiveAt
  rw [hring, getD_modify]
  by_cases hk : k = c
  · subst hk
    simp [hc]
  · rw [if_neg fun hboth ↦ hk hboth.1.symm, if_neg hk]

theorem activeSet_deactivateCurrent {now : ℕ} (hcurrent : d.current = some c)
    (hc : c < d.srvlist.length) (hnow : now ≠ 0) : activeSet (deactivateCurrent now d).srvlist =
      (activeSet d.srvlist).erase c := by
  ext k
  rw [mem_activeSet, activeAt_deactivateCurrent hcurrent hc, Finset.mem_erase, mem_activeSet]
  by_cases hk : k = c <;> simp [hk, hnow]

theorem current_deactivateCurrent (hcurrent : d.current = some c) (hc : c < d.srvlist.length)
    (now : ℕ) :
    ((deactivateCurrent now d).current = none ∧
      ∀ k, ¬ ActiveAt (deactivateCurrent now d).srvlist k) ∨
      ∃ c', (deactivateCurrent now d).current = some c' ∧ ActiveAt
      (deactivateCurrent now d).srvlist c' := by
  have hstart : (markInactive now d).current.getD 0 < (markInactive now d).srvlist.length := by
    unfold markInactive
    simpa [hcurrent] using hc
  exact nextActive_spec hstart

theorem active_of_current (hcurrent : d.current = some c) (hc : c < d.srvlist.length) (now c' : ℕ)
    (hc' : (deactivateCurrent now d).current = some c') :
    ActiveAt (deactivateCurrent now d).srvlist c' := by
  rcases current_deactivateCurrent hcurrent hc now with ⟨hnone, -⟩ | ⟨c'', hc'', hchosen⟩
  · rw [hnone] at hc'
    contradiction
  · rw [hc''] at hc'
    obtain rfl := Option.some.inj hc'
    exact hchosen

/-! ### The loop -/

variable {cfg : Config} {now i : ℕ} {doms : List DomNode}

theorem getD_modify_of_current (hcurrent : (doms.getD i default).current = some c)
    (update : DomNode → DomNode) :
    (doms.modify i update).getD i default = update (doms.getD i default) := by
  have hi : i < doms.length := by
    by_contra hge
    rw [List.getD_eq_getElem?_getD, List.getElem?_eq_none (Nat.not_lt.mp hge)] at hcurrent
    exact absurd hcurrent nofun
  rw [getD_modify, if_pos ⟨rfl, hi⟩]

theorem sendLoop_none (hcurrent : (doms.getD i default).current = none) (sends : List Bool) :
    sendLoop cfg now i sends doms = .ok (doms, none) := by
  cases sends <;> simp only [sendLoop, hcurrent]

theorem mem_attempts (sends : List Bool) :
    ∀ {doms doms' : List DomNode}, (doms.getD i default).current = some c →
      c < (doms.getD i default).srvlist.length → sendLoop cfg now i sends doms = .ok (doms', none) →
      ∀ k, ActiveAt (doms.getD i default).srvlist k → k ∈ attempts cfg now i sends doms := by
  induction sends generalizing c with
  | nil =>
    intro doms doms' hcurrent hc hloop
    simp only [sendLoop, hcurrent, reduceCtorEq] at hloop
  | cons sent sends ih =>
    intro doms doms' hcurrent hc hloop k hk
    simp only [sendLoop, hcurrent] at hloop
    simp only [attempts, hcurrent]
    cases sent with
    | true => simp at hloop
    | false =>
      rw [if_neg Bool.false_ne_true] at hloop ⊢
      by_cases hinterval : cfg.reactivateInterval ≠ 0
      · rw [if_pos hinterval] at hloop ⊢
        have hdom := getD_modify_of_current hcurrent (deactivateCurrent now)
        by_cases hkc : k = c
        · rw [hkc]
          exact List.mem_cons_self
        -- another server is still active, so that the loop goes on
        · have hactive : ActiveAt (deactivateCurrent now (doms.getD i default)).srvlist k := by
            rw [activeAt_deactivateCurrent hcurrent hc, if_neg hkc]
            exact hk
          rcases current_deactivateCurrent hcurrent hc now with ⟨-, hnone⟩ | ⟨c', hc', hchosen⟩
          · exact absurd hactive (hnone k)
          · refine List.mem_cons_of_mem _ (ih (c := c') ?_ ?_ hloop k ?_)
            · rw [hdom, hc']
            · rw [hdom]
              exact hchosen.lt_length
            · rw [hdom]
              exact hactive
      · rw [if_neg hinterval] at hloop ⊢
        exact List.mem_cons_of_mem _ (ih hcurrent hc hloop k hk)

theorem sendLoop_of_mem (sends : List Bool) (hsent : true ∈ sends) :
    ∀ doms, ∃ result, sendLoop cfg now i sends doms = .ok result := by
  induction sends with
  | nil => simp at hsent
  | cons sent sends ih =>
    intro doms
    simp only [sendLoop]
    split
    · exact ⟨_, rfl⟩
    · cases sent with
      | true => exact ⟨_, rfl⟩
      | false =>
        rw [if_neg Bool.false_ne_true]
        exact ih (by simpa using hsent) _

theorem sendLoop_of_active (hinterval : cfg.reactivateInterval ≠ 0) (hnow : now ≠ 0)
    (sends : List Bool) :
    ∀ {doms : List DomNode},
      (∀ c, (doms.getD i default).current = some c → ActiveAt (doms.getD i default).srvlist c) →
      (activeSet (doms.getD i default).srvlist).card ≤ sends.length →
      ∃ result, sendLoop cfg now i sends doms = .ok result := by
  induction sends with
  | nil =>
    intro doms hchosen hcard
    cases hcurrent : (doms.getD i default).current with
    | none => exact ⟨_, sendLoop_none hcurrent []⟩
    | some c =>
      have hmem := mem_activeSet.mpr (hchosen c hcurrent)
      have hpos := Finset.card_pos.mpr ⟨c, hmem⟩
      rw [List.length_nil] at hcard
      omega
  | cons sent sends ih =>
    intro doms hchosen hcard
    cases hcurrent : (doms.getD i default).current with
    | none => exact ⟨_, sendLoop_none hcurrent (sent :: sends)⟩
    | some c =>
      have hactive := hchosen c hcurrent
      simp only [sendLoop, hcurrent]
      cases sent with
      | true => exact ⟨_, rfl⟩
      | false =>
        rw [if_neg Bool.false_ne_true, if_pos hinterval]
        have hdom := getD_modify_of_current hcurrent (deactivateCurrent now)
        refine ih ?_ ?_
        · rw [hdom]
          exact active_of_current hcurrent hactive.lt_length now
        · rw [hdom, activeSet_deactivateCurrent hcurrent hactive.lt_length hnow,
            Finset.card_erase_of_mem (mem_activeSet.mpr hactive)]
          rw [List.length_cons] at hcard
          omega

theorem sendLoop_of_lt (hinterval : cfg.reactivateInterval ≠ 0) (hnow : now ≠ 0) {sends : List Bool}
    (hstart : (doms.getD i default).current.getD 0 < (doms.getD i default).srvlist.length)
    (hlong : (doms.getD i default).srvlist.length < sends.length) :
    ∃ result, sendLoop cfg now i sends doms = .ok result := by
  cases sends with
  | nil => simp at hlong
  | cons sent sends =>
    cases hcurrent : (doms.getD i default).current with
    | none => exact ⟨_, sendLoop_none hcurrent (sent :: sends)⟩
    | some c =>
      have hc : c < (doms.getD i default).srvlist.length := by
        rw [hcurrent] at hstart
        exact hstart
      simp only [sendLoop, hcurrent]
      cases sent with
      | true => exact ⟨_, rfl⟩
      | false =>
        rw [if_neg Bool.false_ne_true, if_pos hinterval]
        have hdom := getD_modify_of_current hcurrent (deactivateCurrent now)
        refine sendLoop_of_active hinterval hnow sends ?_ ?_
        · rw [hdom]
          exact active_of_current hcurrent hc now
        · rw [hdom, activeSet_deactivateCurrent hcurrent hc hnow]
          have herase :=
            Finset.card_erase_le (s := activeSet (doms.getD i default).srvlist) (a := c)
          have hfilter := Finset.card_filter_le (Finset.range (doms.getD i default).srvlist.length)
            (ActiveAt (doms.getD i default).srvlist)
          rw [Finset.card_range] at hfilter
          rw [List.length_cons] at hlong
          exact herase.trans (hfilter.trans (by omega))

theorem sendLoop_waiting (hkeeps : cfg.reactivateInterval = 0 ∨ now = 0) (n : ℕ) :
    ∀ {c : ℕ} {doms : List DomNode}, (doms.getD i default).current = some c →
      c < (doms.getD i default).srvlist.length →
      sendLoop cfg now i (List.replicate n false) doms = .error .waiting := by
  induction n with
  | zero =>
    intro c doms hcurrent hc
    simp only [List.replicate_zero, sendLoop, hcurrent]
  | succ n ih =>
    intro c doms hcurrent hc
    simp only [List.replicate_succ, sendLoop, hcurrent]
    rw [if_neg Bool.false_ne_true]
    by_cases hinterval : cfg.reactivateInterval ≠ 0
    · rw [if_pos hinterval]
      obtain rfl := hkeeps.resolve_left hinterval
      have hdom := getD_modify_of_current hcurrent (deactivateCurrent 0)
      have hstays : ActiveAt (deactivateCurrent 0 (doms.getD i default)).srvlist c := by
        rw [activeAt_deactivateCurrent hcurrent hc, if_pos rfl]
      rcases current_deactivateCurrent hcurrent hc 0 with ⟨-, hnone⟩ | ⟨c', hc', hchosen⟩
      · exact absurd hstays (hnone c)
      · refine ih (c := c') ?_ ?_
        · rw [hdom, hc']
        · rw [hdom]
          exact hchosen.lt_length
    · rw [if_neg hinterval]
      exact ih hcurrent hc

/-! ### The function -/

/-- `send2current` returns, and with the value 0 only after it has tried every server that was
active, if and only if the loop does not start with a server that it neither reaches nor
deactivates, and does not start without a current server while another one is active. Assumes: the
query has a domain, and the current server is in the ring. -/
theorem send2current_ends_iff (cfg : Config) (env : Env) (sends : ℕ → Bool) {k : ℕ}
    (msg : Packet) {s : State} (hentry : s.queries.qlist[k]?.bind Query.domain = some i)
    (hstart : (s.doms.getD i default).current.getD 0 < (s.doms.getD i default).srvlist.length) :
    (∃ n s' ok, send2current cfg { env with sends := firstSends sends n } k msg s = .ok (s', ok) ∧
      (ok = false → ∀ c, ActiveAt (s.doms.getD i default).srvlist c →
        c ∈ attempts cfg env.now i (firstSends sends n) s.doms)) ↔
    (((s.doms.getD i default).current = none ∨ (cfg.reactivateInterval ≠ 0 ∧ env.now ≠ 0) ∨
      ∃ n, sends n = true) ∧
      ((s.doms.getD i default).current = none →
        ∀ c, ¬ ActiveAt (s.doms.getD i default).srvlist c)) := by
  -- what `send2current` returns is the result of its loop
  have hreturns : ∀ n result, sendLoop cfg env.now i (firstSends sends n) s.doms = .ok result →
      ∃ s', send2current cfg { env with sends := firstSends sends n } k msg s = .ok
        (s', result.2.isSome) := by
    intro n result hloop
    obtain ⟨doms, dst⟩ := result
    simp only [send2current, hentry, hloop]
    cases dst <;> exact ⟨_, rfl⟩
  cases hcurrent : (s.doms.getD i default).current with
  | none =>
    have hattempts : ∀ n, attempts cfg env.now i (firstSends sends n) s.doms = [] := by
      intro n
      cases firstSends sends n <;> simp only [attempts, hcurrent]
    constructor
    · rintro ⟨n, s', ok, hsend, htried⟩
      obtain ⟨s'', hsend'⟩ := hreturns n _ (sendLoop_none hcurrent _)
      obtain rfl : false = ok := (Prod.mk.inj (Except.ok.inj (hsend'.symm.trans hsend))).2
      refine ⟨Or.inl rfl, fun _ c hc ↦ ?_⟩
      have hmem := htried rfl c hc
      simp [hattempts] at hmem
    · rintro ⟨-, hnone⟩
      obtain ⟨s', hsend⟩ := hreturns 0 _ (sendLoop_none hcurrent _)
      exact ⟨0, s', _, hsend, fun _ c hc ↦ absurd hc (hnone rfl c)⟩
  | some c =>
    have hc : c < (s.doms.getD i default).srvlist.length := by
      rw [hcurrent] at hstart
      exact hstart
    constructor
    · rintro ⟨n, s', ok, hsend, -⟩
      refine ⟨Or.inr ?_, by simp⟩
      by_contra hfails
      rw [not_or, not_exists, not_and_or, not_ne_iff, not_ne_iff] at hfails
      have hall : firstSends sends n = List.replicate n false := by
        rw [firstSends, List.eq_replicate_iff]
        simpa using fun m _ ↦ hfails.2 m
      have hwaiting := sendLoop_waiting (i := i) hfails.1 n hcurrent hc
      simp only [send2current, hentry, hall, hwaiting] at hsend
      simp at hsend
    · rintro ⟨hends, -⟩
      have hloop : ∃ n result, sendLoop cfg env.now i (firstSends sends n) s.doms = .ok result := by
        rcases hends with hnone | ⟨hinterval, hnow⟩ | ⟨n, hn⟩
        · simp at hnone
        · refine ⟨(s.doms.getD i default).srvlist.length + 1,
            sendLoop_of_lt hinterval hnow hstart ?_⟩
          simp [firstSends]
        · refine ⟨n + 1, sendLoop_of_mem _ ?_ _⟩
          rw [firstSends, List.mem_map]
          exact ⟨n, by simp, hn⟩
      obtain ⟨n, ⟨doms, dst⟩, hloop⟩ := hloop
      obtain ⟨s', hsend⟩ := hreturns n _ hloop
      refine ⟨n, s', _, hsend, fun hfailed ↦ ?_⟩
      obtain rfl : dst = none := by simpa using hfailed
      exact mem_attempts _ hcurrent hc hloop

def pendingState : State :=
  { twoServers with
    queries := { queryInit with
      qlist := [⟨⟨40000, []⟩, ⟨0, 1⟩, some 0, 1, 7, ⟨5, 6000⟩, 100, 1, 12⟩],
        upstreamSockets := 1 } }

/-- No send succeeds, and `send2current` returns after it has tried both servers. -/
theorem send2current_ends_unreachable :
    ∃ n s' ok, send2current defaultConfig
      { zeroedEnv 100 0 0 [] with sends := firstSends (fun _ ↦ false) n } 0 [0, 7]
        pendingState = .ok (s', ok) ∧
      (ok = false → ∀ c, ActiveAt (pendingState.doms.getD 0 default).srvlist c →
        c ∈ attempts defaultConfig 100 0 (firstSends (fun _ ↦ false) n) pendingState.doms) :=
  (send2current_ends_iff defaultConfig (zeroedEnv 100 0 0 []) (fun _ ↦ false) [0, 7]
    (by decide) (by decide)).mpr
    ⟨Or.inr (Or.inl ⟨by decide, by decide⟩), fun hnone ↦ absurd hnone (by decide)⟩

/-- With the retry interval 0 and no send that succeeds, `send2current` does not return. -/
theorem send2current_does_not_end :
    ¬ ∃ n s' ok, send2current { defaultConfig with reactivateInterval := 0 }
      { zeroedEnv 100 0 0 [] with sends := firstSends (fun _ ↦ false) n } 0 [0, 7] pendingState =
        .ok (s', ok) := by
  rintro ⟨n, s', ok, hsend⟩
  have hall : firstSends (fun _ ↦ false) n = List.replicate n false := by simp [firstSends]
  have hcurrent : (pendingState.doms.getD 0 default).current = some 1 := by decide
  have hwaiting : sendLoop { defaultConfig with reactivateInterval := 0 } 100 0
    (List.replicate n false)
      pendingState.doms = .error .waiting := sendLoop_waiting (Or.inl rfl) n hcurrent (by decide)
  have hentry : pendingState.queries.qlist[0]?.bind Query.domain = some 0 := rfl
  simp only [send2current, hentry, hall] at hsend
  rw [show (zeroedEnv 100 0 0 []).now = 100 from rfl, hwaiting] at hsend
  contradiction

end CrossBreeder.Dnrd
