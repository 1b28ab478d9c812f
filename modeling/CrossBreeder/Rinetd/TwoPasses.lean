import CrossBreeder.Rinetd.Configuration
import Mathlib.Data.List.Induction
import Mathlib.Data.List.ReduceOption

/-!
# The two passes of the configuration

`readConfiguration` reads the file twice. The first pass counts the lines by their first word, and
the arrays are allocated for these counts; the second pass stores an entry only for a line that it
accepts.

The arrays start with unknown contents. `Stores` says that after some lines they hold the
configuration of these lines and nothing else, and `passesAgree_iff` when they are full: each rule
line has a pattern that is stored, and no forwarding rule is rejected, except the last one after its
socket was asked for.

`patternBad` refuses no pattern: it decides on the first character whatever that is
(`storedPatterns_iff`), and for a deny line it is not called.
-/

namespace CrossBreeder.Rinetd

open Foundation

/-! ### The first pass -/

structure Totals where
  seTotal : ℕ
  allowRulesTotal : ℕ
  denyRulesTotal : ℕ
  deriving DecidableEq, Repr

/-- The first pass for a line, by its first word: `logfile`, `pidlogfile`, `logcommon`, `allow`,
`deny`, or another. -/
def countLine (totals : Totals) (line : List UInt8) : Totals :=
  match strtok line with
  | none => totals
  | some (t, _) =>
    if t = [108, 111, 103, 102, 105, 108, 101] then totals
    else if t = [112, 105, 100, 108, 111, 103, 102, 105, 108, 101] then totals
    else if t = [108, 111, 103, 99, 111, 109, 109, 111, 110] then totals
    else if t = [97, 108, 108, 111, 119] then
      { totals with allowRulesTotal := totals.allowRulesTotal + 1 }
    else if t = [100, 101, 110, 121] then
      { totals with denyRulesTotal := totals.denyRulesTotal + 1 }
    else { totals with seTotal := totals.seTotal + 1 }

def firstPass (file : List UInt8) : Totals := (confLines file.length file).foldl countLine ⟨0, 0, 0⟩

/-! ### The second pass -/

/-- An array of rules with the index of its next entry, the numbers of the global rules, and the
offset and number of rules that belong to each forwarding rule. Entries that were never assigned are
`none`. -/
structure RuleArray where
  rules : ℕ → Option (List UInt8)
  next : ℕ
  globalRules : ℕ
  seRules : ℕ → Option ℕ
  seRulesTotal : ℕ → Option ℕ

/-- An entry of `seFds`: `INVALID_SOCKET`, or a socket that is open, bound and listening. -/
inductive SeFd
  | invalid
  | listening
  deriving DecidableEq, Repr

/-- The arrays of `readConfiguration` and its index `i`. The addresses, hosts and ports of a
forwarding rule are stored together. -/
structure Arrays where
  i : ℕ
  seFds : ℕ → Option SeFd
  servers : ℕ → Option Server
  allow : RuleArray
  deny : RuleArray

/-- A rule is stored, behind the forwarding rule before index `i`, or globally. -/
def RuleArray.add (i : ℕ) (pattern : List UInt8) (r : RuleArray) : RuleArray :=
  { rules := Function.update r.rules r.next (some pattern)
    next := r.next + 1
    globalRules := if 0 < i then r.globalRules else r.globalRules + 1
    seRules :=
      if 0 < i ∧ r.seRulesTotal (i - 1) = some 0 then
        Function.update r.seRules (i - 1) (some r.next) else r.seRules
    seRulesTotal :=
      if 0 < i then Function.update r.seRulesTotal (i - 1) ((r.seRulesTotal (i - 1)).map (· + 1))
        else r.seRulesTotal }

/-- The count of a forwarding rule is set to zero, if there is room for it. -/
def RuleArray.reset (seTotal i : ℕ) (r : RuleArray) : RuleArray :=
  if i < seTotal then { r with seRulesTotal := Function.update r.seRulesTotal i (some 0) } else r

/-- The exits behind the call of `socket`, which leave `INVALID_SOCKET` in the array. -/
def Rejection.afterSocket : Rejection → Bool
  | .socketFailed | .bindFailed | .listenFailed | .connectHostUnresolved => true
  | _ => false

/-- The second pass for a line. -/
def storeLine (seTotal : ℕ) (a : Arrays) : ConfLine → Arrays
  | .allow (some pattern) => { a with allow := a.allow.add a.i pattern }
  | .deny (some pattern) => { a with deny := a.deny.add a.i pattern }
  | .forward (.error rejection) =>
    if rejection.afterSocket then { a with seFds := Function.update a.seFds a.i (some .invalid) }
      else a
  | .forward (.ok server) =>
    { i := a.i + 1
      seFds := Function.update a.seFds a.i (some .listening)
      servers := Function.update a.servers a.i (some server)
      allow := a.allow.reset seTotal (a.i + 1)
      deny := a.deny.reset seTotal (a.i + 1) }
  | _ => a

def RuleArray.fresh : RuleArray := ⟨fun _ ↦ none, 0, 0, fun _ ↦ none, fun _ ↦ none⟩

/-- The arrays when the second pass starts. -/
def Arrays.fresh (seTotal : ℕ) : Arrays :=
  ⟨0, fun _ ↦ none, fun _ ↦ none, RuleArray.fresh.reset seTotal 0, RuleArray.fresh.reset seTotal 0⟩

/-- The arrays after both passes. -/
def readArrays (outcomes : ℕ → Outcomes) (file : List UInt8) : Arrays :=
  (parseFile outcomes file).foldl (storeLine (firstPass file).seTotal)
    (.fresh (firstPass file).seTotal)

/-- Every entry below the counts was assigned; a socket comes with the entries that belong to it. -/
structure PassesAgree (totals : Totals) (a : Arrays) : Prop where
  servers : ∀ k < totals.seTotal, a.seFds k = some .invalid ∨
    (a.seFds k = some .listening ∧ (a.servers k).isSome ∧ (a.allow.seRulesTotal k).isSome ∧
      (a.deny.seRulesTotal k).isSome)
  allow : ∀ k < totals.allowRulesTotal, (a.allow.rules k).isSome
  deny : ∀ k < totals.denyRulesTotal, (a.deny.rules k).isSome

/-! ### The counts -/

/-- What the second pass makes of the forwarding rules. -/
def forwards (lines : List ConfLine) : List (Except Rejection Server) :=
  lines.filterMap fun
    | .forward server => some server
    | _ => none

/-- The patterns of the allow lines, and those that are missing or bad. -/
def allowLines (lines : List ConfLine) : List (Option (List UInt8)) :=
  lines.filterMap fun
    | .allow pattern => some pattern
    | _ => none

def denyLines (lines : List ConfLine) : List (Option (List UInt8)) :=
  lines.filterMap fun
    | .deny pattern => some pattern
    | _ => none

def countsOf (lines : List ConfLine) : Totals :=
  ⟨(forwards lines).length, (allowLines lines).length, (denyLines lines).length⟩

theorem countLine_eq (outcomes : Outcomes) (totals : Totals) (line : List UInt8) :
    countLine totals line =
      match parseLine outcomes line with
      | some (.forward _) => { totals with seTotal := totals.seTotal + 1 }
      | some (.allow _) => { totals with allowRulesTotal := totals.allowRulesTotal + 1 }
      | some (.deny _) => { totals with denyRulesTotal := totals.denyRulesTotal + 1 }
      | _ => totals := by
  unfold countLine parseLine
  cases strtok line with
  | none => rfl
  | some word =>
    obtain ⟨t, rest⟩ := word
    simp only
    split_ifs <;> simp_all

theorem foldl_countLine (outcomes : ℕ → Outcomes) (lines : List (List UInt8)) :
    ∀ (n : ℕ) (totals : Totals), lines.foldl countLine totals =
      let counts :=
  countsOf ((lines.zipIdx n).filterMap fun line ↦ parseLine (outcomes line.2) line.1)
      ⟨totals.seTotal + counts.seTotal, totals.allowRulesTotal + counts.allowRulesTotal,
        totals.denyRulesTotal + counts.denyRulesTotal⟩ := by
  induction lines with
  | nil => exact fun _ _ ↦ rfl
  | cons line lines ih =>
    intro n totals
    rw [List.foldl_cons, List.zipIdx_cons, List.filterMap_cons, ih (n + 1),
      countLine_eq (outcomes n)]
    rcases parseLine (outcomes n) line with _ | _ | _ | _ | _ | _ | _ <;>
      simp [countsOf, forwards, allowLines, denyLines, Nat.add_assoc, Nat.add_comm 1]

theorem firstPass_eq (outcomes : ℕ → Outcomes) (file : List UInt8) :
    firstPass file = countsOf (parseFile outcomes file) := by
  rw [firstPass, foldl_countLine outcomes _ 1, parseFile]
  simp

/-! ### What the arrays hold -/

/-- The array holds the rules of a configuration, with a window for each forwarding rule. -/
structure RuleArray.Stores (r : RuleArray) (w : Windowed (List UInt8)) (seTotal : ℕ) : Prop where
  rules : r.rules = fun k ↦ w.items[k]?
  next : r.next = w.items.length
  globalRules : r.globalRules = w.leading
  totals : ∀ k < seTotal, r.seRulesTotal k =
    if k ≤ w.windows.length then some (w.windows[k]?.elim 0 Window.total) else none
  offsets : ∀ k window, w.windows[k]? = some window → window.total ≠ 0 →
    r.seRules k = some window.offset

namespace RuleArray.Stores

variable {r : RuleArray} {w : Windowed (List UInt8)} {seTotal : ℕ}

theorem fresh (seTotal : ℕ) : (RuleArray.fresh.reset seTotal 0).Stores .empty seTotal := by
  unfold RuleArray.reset
  by_cases htotal : 0 < seTotal
  · rw [if_pos htotal]
    refine ⟨rfl, rfl, rfl, fun k _ ↦ ?_, by simp [Windowed.empty]⟩
    cases k with
    | zero => simp [Windowed.empty]
    | succ k => simp [Windowed.empty, RuleArray.fresh]
  · rw [if_neg htotal]
    exact ⟨rfl, rfl, rfl, fun k hk ↦ absurd hk (by omega), by simp [Windowed.empty]⟩

theorem seRulesTotal_eq (h : r.Stores w seTotal) {k : ℕ} (hk : k < seTotal) {window : Window}
    (hwindow : w.windows[k]? = some window) : r.seRulesTotal k = some window.total := by
  have hlt := (List.getElem?_eq_some_iff.mp hwindow).1
  rw [h.totals k hk, if_pos (Nat.le_of_lt hlt), hwindow]
  rfl

theorem add (h : r.Stores w seTotal) (hroom : w.windows.length ≤ seTotal) (pattern : List UInt8) :
    (r.add w.windows.length pattern).Stores (w.push pattern) seTotal := by
  have hwindow : ∀ k, (w.push pattern).windows[k]? =
      if w.windows.length - 1 = k then w.windows[k]?.map (Windowed.extend w.items.length)
        else w.windows[k]? := by
    intro k
    rw [Windowed.push, List.getElem?_modify]
    split_ifs <;> simp
  refine ⟨?_, ?_, ?_, ?_, ?_⟩
  · funext k
    show Function.update r.rules r.next (some pattern) k = (w.items ++ [pattern])[k]?
    rw [h.next, h.rules]
    by_cases hk : k = w.items.length
    · subst hk
      simp
    · rw [Function.update_of_ne hk]
      rcases Nat.lt_or_gt_of_ne hk with hlt | hgt
      · rw [List.getElem?_append_left hlt]
      · rw [List.getElem?_eq_none (by omega), List.getElem?_eq_none (by simp; omega)]
  · show r.next + 1 = (w.items ++ [pattern]).length
    rw [h.next, List.length_append, List.length_singleton]
  · show (if 0 < w.windows.length then r.globalRules else r.globalRules + 1) =
      if w.windows = [] then w.leading + 1 else w.leading
    rw [h.globalRules]
    by_cases hnil : w.windows = []
    · rw [if_pos hnil, if_neg (by simp [hnil])]
    · rw [if_neg hnil, if_pos (List.length_pos_of_ne_nil hnil)]
  · intro k hk
    have hlength : (w.push pattern).windows.length = w.windows.length := List.length_modify ..
    show (if 0 < w.windows.length then Function.update r.seRulesTotal (w.windows.length - 1) _
      else r.seRulesTotal) k = _
    rw [hwindow, hlength]
    by_cases hlast : w.windows.length - 1 = k ∧ 0 < w.windows.length
    · obtain ⟨rfl, hpos⟩ := hlast
      have hget : w.windows[w.windows.length - 1]? = some w.windows[w.windows.length - 1] :=
        List.getElem?_eq_getElem (by omega)
      rw [if_pos hpos, Function.update_self,
        h.seRulesTotal_eq (by omega) hget, if_pos rfl, hget, if_pos (by omega)]
      rfl
    · have hkeep :
        (if w.windows.length - 1 = k then w.windows[k]?.map (Windowed.extend w.items.length)
          else w.windows[k]?) = w.windows[k]? := by
        split_ifs with heq
        · rw [List.getElem?_eq_none (by omega)]
          rfl
        · rfl
      rw [hkeep, ← h.totals k hk]
      split_ifs with hpos
      · exact Function.update_of_ne (fun heq ↦ hlast ⟨heq.symm, hpos⟩) _ _
      · rfl
  · intro k window hk htotal
    show (if 0 < w.windows.length ∧ r.seRulesTotal (w.windows.length - 1) = some 0 then
      Function.update r.seRules (w.windows.length - 1) (some r.next) else r.seRules) k = _
    rw [hwindow] at hk
    by_cases hlast : w.windows.length - 1 = k
    · rw [if_pos hlast] at hk
      obtain ⟨old, hold, rfl⟩ := Option.map_eq_some_iff.mp hk
      have hlt := (List.getElem?_eq_some_iff.mp hold).1
      subst hlast
      rw [h.seRulesTotal_eq (by omega) hold]
      by_cases hzero : old.total = 0
      · rw [if_pos
          ⟨by omega, by rw [hzero]⟩, Function.update_self, h.next, Windowed.extend, if_pos hzero]
      · rw [if_neg fun hboth ↦ hzero (Option.some.inj hboth.2), h.offsets _ old hold hzero,
          Windowed.extend, if_neg hzero]
    · rw [if_neg hlast] at hk
      rw [← h.offsets k window hk htotal]
      split_ifs
      · exact Function.update_of_ne (fun heq ↦ hlast heq.symm) _ _
      · rfl

theorem openWindow (h : r.Stores w seTotal) :
    (r.reset seTotal (w.windows.length + 1)).Stores w.openWindow seTotal := by
  have hwindow : ∀ k : ℕ, w.openWindow.windows[k]?.elim 0 Window.total = w.windows[k]?.elim 0
    Window.total := by
    intro k
    show (w.windows ++ [⟨0, 0⟩])[k]?.elim 0 Window.total = _
    rcases Nat.lt_trichotomy k w.windows.length with hlt | rfl | hgt
    · rw [List.getElem?_append_left hlt]
    · simp
    · rw [List.getElem?_eq_none (by simp; omega), List.getElem?_eq_none (by omega)]
  have hlength : w.openWindow.windows.length = w.windows.length + 1 := by simp [Windowed.openWindow]
  have htotals : ∀ k < seTotal, (r.reset seTotal (w.windows.length + 1)).seRulesTotal k =
      if k ≤ w.openWindow.windows.length then some (w.openWindow.windows[k]?.elim 0 Window.total)
        else none := by
    intro k hk
    rw [hwindow, hlength, RuleArray.reset]
    by_cases hlast : k = w.windows.length + 1
    · subst hlast
      rw [if_pos hk, if_pos le_rfl, List.getElem?_eq_none (by omega)]
      exact Function.update_self ..
    · have hle : k ≤ w.windows.length + 1 ↔ k ≤ w.windows.length := by omega
      simp only [hle]
      rw [← h.totals k hk]
      split_ifs
      · exact Function.update_of_ne hlast _ _
      · rfl
  refine ⟨?_, ?_, ?_, htotals, fun k window hk htotal ↦ ?_⟩
  · unfold RuleArray.reset
    split_ifs <;> exact h.rules
  · unfold RuleArray.reset
    split_ifs <;> exact h.next
  · unfold RuleArray.reset
    split_ifs <;> exact h.globalRules
  · have hold : w.windows[k]? = some window := by
      rcases Nat.lt_trichotomy k w.windows.length with hlt | rfl | hgt
      · rwa [Windowed.openWindow, List.getElem?_append_left hlt] at hk
      · simp only [Windowed.openWindow, List.getElem?_concat_length, Option.some.injEq] at hk
        exact absurd (hk ▸ rfl) htotal
      · rw [Windowed.openWindow, List.getElem?_eq_none (by simp; omega)] at hk
        contradiction
    rw [← h.offsets k window hold htotal, RuleArray.reset]
    split_ifs <;> rfl

end RuleArray.Stores

/-- Behind the last accepted forwarding rule there is a rejected one whose socket was asked for. -/
def tailInvalid (results : List (Except Rejection Server)) : Bool :=
  results.foldl (fun reached result ↦
    match result with
    | .ok _ => false
    | .error rejection => reached || rejection.afterSocket) false

theorem tailInvalid_append (results : List (Except Rejection Server)) (rejection : Rejection) :
    tailInvalid (results ++ [.error rejection]) =
      (tailInvalid results || rejection.afterSocket) := by
  rw [tailInvalid, List.foldl_append]
  rfl

theorem tailInvalid_append_ok (results : List (Except Rejection Server)) (server : Server) :
    tailInvalid (results ++ [.ok server]) = false := by
  rw [tailInvalid, List.foldl_append]
  rfl

/-- The arrays hold a configuration, and behind its forwarding rules at most one entry with no
socket. -/
structure Arrays.Stores (a : Arrays) (settings : Settings)
    (results : List (Except Rejection Server)) (seTotal : ℕ) : Prop where
  index : a.i = settings.servers.length
  servers : a.servers = fun k ↦ settings.servers[k]?
  listening : ∀ k < settings.servers.length, a.seFds k = some .listening
  tail : a.seFds settings.servers.length = if tailInvalid results then some .invalid else none
  rest : ∀ k, settings.servers.length < k → a.seFds k = none
  allow : a.allow.Stores settings.allowRules seTotal
  deny : a.deny.Stores settings.denyRules seTotal
  allowWindows : settings.allowRules.windows.length = settings.servers.length
  denyWindows : settings.denyRules.windows.length = settings.servers.length

namespace Arrays.Stores

variable {a : Arrays} {settings : Settings} {results : List (Except Rejection Server)} {seTotal : ℕ}

theorem fresh (seTotal : ℕ) : (Arrays.fresh seTotal).Stores .empty [] seTotal where
  index := rfl
  servers := rfl
  listening k hk := absurd hk (Nat.not_lt_zero k)
  tail := rfl
  rest _ _ := rfl
  allow := .fresh seTotal
  deny := .fresh seTotal
  allowWindows := rfl
  denyWindows := rfl

theorem allowRule (h : a.Stores settings results seTotal)
    (hroom : settings.servers.length ≤ seTotal) (pattern : List UInt8) :
    (storeLine seTotal a (.allow (some pattern))).Stores
      (readLine settings (.allow (some pattern))) results seTotal := by
  have hadd := h.allow.add (h.allowWindows ▸ hroom) pattern
  rw [h.allowWindows, ← h.index] at hadd
  exact ⟨h.index, h.servers, h.listening, h.tail, h.rest, hadd, h.deny,
    (List.length_modify ..).trans h.allowWindows, h.denyWindows⟩

theorem denyRule (h : a.Stores settings results seTotal) (hroom : settings.servers.length ≤ seTotal)
    (pattern : List UInt8) :
    (storeLine seTotal a (.deny (some pattern))).Stores
      (readLine settings (.deny (some pattern))) results seTotal := by
  have hadd := h.deny.add (h.denyWindows ▸ hroom) pattern
  rw [h.denyWindows, ← h.index] at hadd
  exact ⟨h.index, h.servers, h.listening, h.tail, h.rest, h.allow, hadd, h.allowWindows,
    (List.length_modify ..).trans h.denyWindows⟩

theorem rejected (h : a.Stores settings results seTotal) (rejection : Rejection) :
    (storeLine seTotal a (.forward (.error rejection))).Stores settings
      (results ++ [.error rejection]) seTotal := by
  have htail := tailInvalid_append results rejection
  rw [storeLine]
  by_cases hsocket : rejection.afterSocket = true
  · rw [if_pos hsocket]
    have hother : ∀ k, k ≠ settings.servers.length →
        Function.update a.seFds a.i (some .invalid) k = a.seFds k := fun k hk ↦
      Function.update_of_ne (fun heq ↦ hk (heq.trans h.index)) _ _
    refine ⟨h.index, h.servers, fun k hk ↦ ?_, ?_, fun k hk ↦ ?_, h.allow, h.deny, h.allowWindows,
      h.denyWindows⟩
    · exact (hother k (by omega)).trans (h.listening k hk)
    · show Function.update a.seFds a.i (some .invalid) settings.servers.length = _
      rw [htail, hsocket, Bool.or_true, h.index, Function.update_self, if_pos rfl]
    · exact (hother k (by omega)).trans (h.rest k hk)
  · rw [if_neg hsocket]
    refine ⟨h.index, h.servers, h.listening, ?_, h.rest, h.allow, h.deny, h.allowWindows,
      h.denyWindows⟩
    rw [h.tail, htail, Bool.eq_false_iff.mpr hsocket, Bool.or_false]

theorem accepted (h : a.Stores settings results seTotal) (server : Server) :
    (storeLine seTotal a (.forward (.ok server))).Stores (readLine settings (.forward (.ok server)))
      (results ++ [.ok server]) seTotal := by
  have htail := tailInvalid_append_ok results server
  have hlength : (settings.servers ++ [server]).length = settings.servers.length + 1 := by simp
  have hallow := h.allow.openWindow
  have hdeny := h.deny.openWindow
  rw [h.allowWindows, ← h.index] at hallow
  rw [h.denyWindows, ← h.index] at hdeny
  have hother : ∀ k, k ≠ settings.servers.length →
      Function.update a.seFds a.i (some .listening) k = a.seFds k := fun k hk ↦
    Function.update_of_ne (fun heq ↦ hk (heq.trans h.index)) _ _
  refine ⟨?_, ?_, fun k hk ↦ ?_, ?_, fun k hk ↦ ?_, hallow, hdeny, ?_, ?_⟩
  · exact (congrArg (· + 1) h.index).trans hlength.symm
  · funext k
    show Function.update a.servers a.i (some server) k = (settings.servers ++ [server])[k]?
    rw [h.index, h.servers]
    by_cases hk : k = settings.servers.length
    · subst hk
      simp
    · rw [Function.update_of_ne hk]
      rcases Nat.lt_or_gt_of_ne hk with hlt | hgt
      · rw [List.getElem?_append_left hlt]
      · rw [List.getElem?_eq_none (by omega), List.getElem?_eq_none (by omega)]
  · show Function.update a.seFds a.i (some .listening) k = _
    by_cases heq : k = settings.servers.length
    · rw [heq, h.index, Function.update_self]
    · exact (hother k heq).trans (h.listening k (by
        have hlt : k < (settings.servers ++ [server]).length := hk
        omega))
  · rw [htail]
    exact (hother _ (by
      show (settings.servers ++ [server]).length ≠ _
      omega)).trans (h.rest _ (by
      show _ < (settings.servers ++ [server]).length
      omega))
  · have hgt : (settings.servers ++ [server]).length < k := hk
    exact (hother k (by omega)).trans (h.rest k (by omega))
  · show (settings.allowRules.windows ++ [(⟨0, 0⟩ : Window)]).length =
      (settings.servers ++ [server]).length
    rw [hlength, List.length_append, h.allowWindows]
    rfl
  · show (settings.denyRules.windows ++ [(⟨0, 0⟩ : Window)]).length =
      (settings.servers ++ [server]).length
    rw [hlength, List.length_append, h.denyWindows]
    rfl

end Arrays.Stores

theorem forwards_append (front back : List ConfLine) :
    forwards (front ++ back) = forwards front ++ forwards back :=
  List.filterMap_append ..

theorem length_servers_le (lines : List ConfLine) :
    (lines.foldl readLine .empty).servers.length ≤ (forwards lines).length := by
  rw [servers_foldl_readLine]
  show ([] ++ acceptedServers lines).length ≤ _
  rw [List.nil_append]
  induction lines with
  | nil => exact le_rfl
  | cons line lines ih =>
    rcases line with _ | _ | _ | _ | _ | (_ | _) <;> simp only [acceptedServers, forwards,
      List.filterMap_cons] at ih ⊢ <;>
      first | exact ih | exact Nat.le_succ_of_le ih | exact Nat.succ_le_succ ih

theorem stores_foldl (seTotal : ℕ) (lines : List ConfLine)
    (hroom : (forwards lines).length ≤ seTotal) :
    (lines.foldl (storeLine seTotal) (.fresh seTotal)).Stores (lines.foldl readLine .empty)
      (forwards lines) seTotal := by
  induction lines using List.reverseRecOn with
  | nil => exact .fresh seTotal
  | append_singleton lines line ih =>
    rw [forwards_append] at hroom ⊢
    have hfront : (forwards lines).length ≤ seTotal := by
      rw [List.length_append] at hroom
      omega
    have h := ih hfront
    have hservers := (length_servers_le lines).trans hfront
    rw [List.foldl_append, List.foldl_append]
    rcases line with (_ | pattern) | (_ | pattern) | (_ | name) | (_ | name) | _
      | (rejection | server)
    case allow.some => simpa [forwards] using h.allowRule hservers pattern
    case deny.some => simpa [forwards] using h.denyRule hservers pattern
    case forward.error => exact h.rejected rejection
    case forward.ok => exact h.accepted server
    all_goals
      rw [show forwards [_] = [] from rfl, List.append_nil]
      exact ⟨h.index, h.servers, h.listening, h.tail, h.rest, h.allow, h.deny, h.allowWindows,
        h.denyWindows⟩

/-! ### When the arrays are full -/

theorem items_foldl_attach {rule : ConfLine → Option (List UInt8)}
    (hrule : ∀ server, rule (.forward server) = none) (lines : List ConfLine)
    (w : Windowed (List UInt8)) :
    (lines.foldl (attach rule) w).items = w.items ++ (lines.map rule).reduceOption := by
  induction lines generalizing w with
  | nil => simp
  | cons line lines ih =>
    have hline : (attach rule w line).items = w.items ++ (rule line).toList := by
      rcases line_cases rule line with ⟨server, rfl⟩ | ⟨hattach, -⟩
      · simp [attach, hrule, Windowed.openWindow]
      · rw [hattach]
        cases rule line <;> simp [Windowed.push]
    rw [List.foldl_cons, ih, hline, List.map_cons, List.append_assoc]
    cases rule line <;> simp

theorem reduceOption_allowPattern (lines : List ConfLine) :
    (lines.map ConfLine.allowPattern).reduceOption = (allowLines lines).reduceOption := by
  induction lines with
  | nil => rfl
  | cons line lines ih =>
    rcases line with (_ | _) | _ | _ | _ | _ | _ <;> simpa [allowLines, ConfLine.allowPattern]
      using ih

theorem reduceOption_denyPattern (lines : List ConfLine) :
    (lines.map ConfLine.denyPattern).reduceOption = (denyLines lines).reduceOption := by
  induction lines with
  | nil => rfl
  | cons line lines ih =>
    rcases line with _ | (_ | _) | _ | _ | _ | _ <;> simpa [denyLines, ConfLine.denyPattern]
      using ih

theorem acceptedServers_eq (lines : List ConfLine) :
    acceptedServers lines = ((forwards lines).map Except.toOption).reduceOption := by
  induction lines with
  | nil => rfl
  | cons line lines ih =>
    rcases line with _ | _ | _ | _ | _ | (_ | _) <;>
      simpa [acceptedServers, forwards, Except.toOption] using ih

/-- The forwarding rules leave no entry open: all are accepted, or only the last one is rejected,
with a socket. -/
def NoneLeftOpen (results : List (Except Rejection Server)) : Prop :=
  (∀ result ∈ results, ∃ server, result = .ok server) ∨
    ∃ front rejection, results = front ++ [.error rejection] ∧
      (∀ result ∈ front, ∃ server, result = .ok server) ∧ rejection.afterSocket = true

theorem length_accepted_eq_iff (results : List (Except Rejection Server)) :
    ((results.map Except.toOption).reduceOption).length = results.length ↔
      ∀ result ∈ results, ∃ server, result = .ok server := by
  rw [← @List.length_map _ _ results Except.toOption, List.reduceOption_length_eq_iff,
    List.forall_mem_map]
  refine forall₂_congr fun result _ ↦ ?_
  cases result <;> simp [Except.toOption]

theorem tailInvalid_of_accepted {results : List (Except Rejection Server)}
    (haccepted : ∀ result ∈ results, ∃ server, result = .ok server) :
    tailInvalid results = false := by
  induction results using List.reverseRecOn with
  | nil => rfl
  | append_singleton results result _ =>
    obtain ⟨server, rfl⟩ := haccepted result (by simp)
    exact tailInvalid_append_ok results server

theorem noneLeftOpen_iff (results : List (Except Rejection Server)) :
    NoneLeftOpen results ↔
      results.length = ((results.map Except.toOption).reduceOption).length ∨
        results.length =
        ((results.map Except.toOption).reduceOption).length + 1 ∧ tailInvalid results = true := by
  rw [NoneLeftOpen, ← length_accepted_eq_iff, eq_comm (a := results.length)]
  refine or_congr_right ?_
  constructor
  · rintro ⟨front, rejection, rfl, hfront, hsocket⟩
    rw [tailInvalid_append, hsocket, Bool.or_true]
    have hlength := (length_accepted_eq_iff front).mpr hfront
    simp only [List.map_append, List.reduceOption_append, List.length_append]
    simpa [Except.toOption] using hlength.symm
  · rintro ⟨hlength, htail⟩
    induction results using List.reverseRecOn with
    | nil => simp at hlength
    | append_singleton front result _ =>
      cases result with
      | ok server =>
        rw [tailInvalid_append_ok] at htail
        contradiction
      | error rejection =>
        have hcount : ((front.map Except.toOption).reduceOption).length = front.length := by
          simp only [List.map_append, List.reduceOption_append, List.length_append] at hlength
          simpa [Except.toOption] using hlength.symm
        have hfront := (length_accepted_eq_iff front).mp hcount
        rw [tailInvalid_append, tailInvalid_of_accepted hfront, Bool.false_or] at htail
        exact ⟨front, rejection, rfl, hfront, htail⟩

theorem rules_full_iff {r : RuleArray} {w : Windowed (List UInt8)} {seTotal : ℕ}
    (h : r.Stores w seTotal) {entries : List (Option (List UInt8))}
    (hitems : w.items = entries.reduceOption) :
    (∀ k < entries.length, (r.rules k).isSome) ↔ none ∉ entries := by
  have hle := List.reduceOption_length_le entries
  have hall : none ∉ entries ↔ entries.reduceOption.length = entries.length := by
    rw [List.reduceOption_length_eq_iff]
    constructor
    · intro hnone entry hentry
      exact Option.isSome_iff_ne_none.mpr fun heq ↦ hnone (heq ▸ hentry)
    · intro hsome hnone
      simpa using hsome none hnone
  rw [hall, h.rules, hitems]
  constructor
  · intro hfull
    by_contra hne
    have hlast := hfull entries.reduceOption.length (by omega)
    simp at hlast
  · intro heq k hk
    rw [← heq] at hk
    simp [hk]

theorem allowRules_items (outcomes : ℕ → Outcomes) (file : List UInt8) :
    (readConfiguration outcomes file).allowRules.items =
      (allowLines (parseFile outcomes file)).reduceOption := by
  rw [← reduceOption_allowPattern, readConfiguration, (rules_foldl_readLine _ _).1,
    items_foldl_attach fun _ ↦ rfl]
  rfl

theorem denyRules_items (outcomes : ℕ → Outcomes) (file : List UInt8) :
    (readConfiguration outcomes file).denyRules.items =
      (denyLines (parseFile outcomes file)).reduceOption := by
  rw [← reduceOption_denyPattern, readConfiguration, (rules_foldl_readLine _ _).2,
    items_foldl_attach fun _ ↦ rfl]
  rfl

/-- The first pass counts as many entries as the second one stores, for every file and all that
resolving, binding and listening may give, if and only if each allow line has a pattern that is not
refused, each deny line has a pattern, and every forwarding rule is accepted, except possibly the
last one, whose socket has then been asked for. -/
theorem passesAgree_iff (outcomes : ℕ → Outcomes) (file : List UInt8) :
    PassesAgree (firstPass file) (readArrays outcomes file) ↔
      none ∉ allowLines (parseFile outcomes file) ∧ none ∉ denyLines (parseFile outcomes file) ∧
        NoneLeftOpen (forwards (parseFile outcomes file)) := by
  have htotals := firstPass_eq outcomes file
  have hse : (firstPass file).seTotal = (forwards (parseFile outcomes file)).length :=
    congrArg Totals.seTotal htotals
  have hstores := stores_foldl (firstPass file).seTotal (parseFile outcomes file) hse.ge
  change (readArrays outcomes file).Stores (readConfiguration outcomes file) _ _ at hstores
  have hallowItems := allowRules_items outcomes file
  have hdenyItems := denyRules_items outcomes file
  have hservers : (readConfiguration outcomes file).servers.length =
      (((forwards (parseFile outcomes file)).map Except.toOption).reduceOption).length := by
    rw [← acceptedServers_eq, readConfiguration, servers_foldl_readLine]
    rfl
  have hle : (readConfiguration outcomes file).servers.length ≤
    (forwards (parseFile outcomes file)).length := by
    rw [hservers]
    exact (List.reduceOption_length_le _).trans (List.length_map ..).le
  rw [← rules_full_iff hstores.allow hallowItems, ← rules_full_iff hstores.deny hdenyItems,
    noneLeftOpen_iff, ← hservers]
  constructor
  · rintro ⟨hfds, hallowFull, hdenyFull⟩
    refine ⟨fun k hk ↦ hallowFull k ?_, fun k hk ↦ hdenyFull k ?_, ?_⟩
    · rwa [htotals]
    · rwa [htotals]
    · by_contra hopen
      obtain ⟨hmore, htail⟩ := not_or.mp hopen
      -- the entry behind the last accepted rule, or the one after it, was not assigned
      have hassigned : ∀ k < (firstPass file).seTotal,
        (readArrays outcomes file).seFds k ≠ none := by
        intro k hk hnone
        rcases hfds k hk with hinvalid | ⟨hlistening, -⟩
        · rw [hnone] at hinvalid
          contradiction
        · rw [hnone] at hlistening
          contradiction
      by_cases hone : (forwards (parseFile outcomes file)).length =
        (readConfiguration outcomes file).servers.length + 1
      · refine hassigned _ (by omega) (hstores.tail.trans (if_neg fun htrue ↦ htail ⟨hone, htrue⟩))
      · exact hassigned ((readConfiguration outcomes file).servers.length + 1)
          (by omega) (hstores.rest _ (by omega))
  · rintro ⟨hallowFull, hdenyFull, hfds⟩
    refine ⟨fun k hk ↦ ?_, fun k hk ↦
      hallowFull k (by rwa [htotals] at hk), fun k hk ↦ hdenyFull k (by rwa [htotals] at hk)⟩
    by_cases haccepted : k < (readConfiguration outcomes file).servers.length
    · refine Or.inr ⟨hstores.listening k haccepted, ?_, ?_, ?_⟩
      · rw [hstores.servers]
        simpa using haccepted
      · rw [hstores.allow.totals k hk, if_pos (by rw [hstores.allowWindows]; omega)]
        rfl
      · rw [hstores.deny.totals k hk, if_pos (by rw [hstores.denyWindows]; omega)]
        rfl
    · rcases hfds with hall | ⟨hone, htail⟩
      · omega
      · obtain rfl : k = (readConfiguration outcomes file).servers.length := by omega
        exact Or.inl (hstores.tail.trans (if_pos htail))

/-- Hosts are resolved, and nothing fails. -/
def everythingWorks (_ : ℕ) : Outcomes where
  service _ := none
  host _ := some 16777343
  inetAddr _ := 0
  socket := true
  bind := true
  listen := true

/-- A file with one line, `allow`. -/
def allowWithoutPattern : List UInt8 := [97, 108, 108, 111, 119, 10]

/-- The first pass counts the line `allow`, and the second one stores nothing for it. -/
theorem passes_disagree :
    firstPass allowWithoutPattern = ⟨0, 1, 0⟩ ∧
      (readArrays everythingWorks allowWithoutPattern).allow.rules 0 = none ∧
      ¬ PassesAgree (firstPass allowWithoutPattern)
      (readArrays everythingWorks allowWithoutPattern) := by
  have htotals : firstPass allowWithoutPattern = ⟨0, 1, 0⟩ := by decide
  have hrule : (readArrays everythingWorks allowWithoutPattern).allow.rules 0 = none := by decide
  refine ⟨htotals, hrule, fun hagree ↦ ?_⟩
  have hassigned := hagree.allow 0 (by rw [htotals]; decide)
  rw [hrule] at hassigned
  contradiction

/-! ### The patterns -/

/-- A pattern of address characters: digits, dots, question marks and stars. -/
def WellFormed (pattern : List UInt8) : Prop := ∀ c ∈ pattern,
    (48 ≤ c ∧ c ≤ 57) ∨ c = 46 ∨ c = 63 ∨ c = 42

instance (pattern : List UInt8) : Decidable (WellFormed pattern) :=
  inferInstanceAs (Decidable (∀ c ∈ pattern, _))

def secondWord (first line : List UInt8) : Option (List UInt8) :=
  match strtok line with
  | none => none
  | some (word, rest) => if word = first then (strtok rest).map Prod.fst else none

theorem ne_nil_of_strtok {text word rest : List UInt8} (h : strtok text = some (word, rest)) :
    word ≠ [] := by
  unfold strtok at h
  cases hdrop : text.dropWhile isDelimiter with
  | nil => simp [hdrop] at h
  | cons c tail =>
    simp only [hdrop] at h
    obtain ⟨rfl, -⟩ := Prod.mk.inj (Option.some.inj h)
    have hc : isDelimiter c = false := by
      have hhead := List.head?_dropWhile_not isDelimiter text
      simpa [hdrop] using hhead
    simp [hc]

theorem ne_nil_of_secondWord {first line word : List UInt8}
    (h : secondWord first line = some word) : word ≠ [] := by
  unfold secondWord at h
  split at h
  · contradiction
  · split_ifs at h
    obtain ⟨second, hsecond, rfl⟩ := Option.map_eq_some_iff.mp h
    exact ne_nil_of_strtok hsecond

theorem patternBad_iff (pattern : List UInt8) : patternBad pattern = true ↔ pattern = [] := by
  cases pattern <;> simp [patternBad]

theorem parseLine_allow_iff (outcomes : Outcomes) (line pattern : List UInt8) :
    parseLine outcomes line = some (.allow (some pattern)) ↔ secondWord
      [97, 108, 108, 111, 119] line = some pattern := by
  unfold parseLine secondWord
  cases strtok line with
  | none => simp
  | some word =>
    obtain ⟨first, rest⟩ := word
    simp only
    by_cases hfirst : first = [97, 108, 108, 111, 119]
    · rw [if_pos hfirst, if_pos hfirst]
      cases hrest : strtok rest with
      | none => simp
      | some second =>
        have hne := ne_nil_of_strtok hrest
        have hgood : patternBad second.1 = false := Bool.eq_false_iff.mpr fun hbad ↦
          hne ((patternBad_iff _).mp hbad)
        have hkept : Option.filter (! patternBad ·) (some second.1) = some second.1 := by
          simp [hgood]
        rw [Option.map_some, hkept, Option.some.injEq, ConfLine.allow.injEq]
    · rw [if_neg hfirst, if_neg hfirst]
      split_ifs <;> simp

theorem parseLine_deny_iff (outcomes : Outcomes) (line pattern : List UInt8) :
    parseLine outcomes line = some (.deny (some pattern)) ↔ secondWord
      [100, 101, 110, 121] line = some pattern := by
  unfold parseLine secondWord
  cases strtok line with
  | none => simp
  | some word =>
    obtain ⟨first, rest⟩ := word
    simp only
    by_cases hfirst : first = [100, 101, 110, 121]
    · subst hfirst
      simp
    · rw [if_neg hfirst, if_neg hfirst]
      split_ifs <;> simp

theorem mem_parseFile (outcomes : ℕ → Outcomes) {file : List UInt8} {result : ConfLine}
    {read : List UInt8 → Prop} (hread : ∀ outcomes line, parseLine outcomes line = some result ↔
      read line) :
    result ∈ parseFile outcomes file ↔ ∃ line ∈ confLines file.length file, read line := by
  unfold parseFile
  rw [List.mem_filterMap]
  constructor
  · rintro ⟨⟨line, n⟩, hline, hresult⟩
    exact ⟨line, List.fst_mem_of_mem_zipIdx hline, (hread _ _).mp hresult⟩
  · rintro ⟨line, hline, hresult⟩
    obtain ⟨n, hn, rfl⟩ := List.getElem_of_mem hline
    exact ⟨(_, 1 + n), List.mk_add_mem_zipIdx_iff_getElem?.mpr (List.getElem?_eq_getElem hn),
      (hread _ _).mpr hresult⟩

theorem mem_allowRules (outcomes : ℕ → Outcomes) (file pattern : List UInt8) :
    pattern ∈ (readConfiguration outcomes file).allowRules.items ↔
      ∃ line ∈ confLines file.length file, secondWord
      [97, 108, 108, 111, 119] line = some pattern := by
  rw [← mem_parseFile outcomes fun _ line ↦ parseLine_allow_iff _ line pattern, allowRules_items,
    List.reduceOption_mem_iff, allowLines, List.mem_filterMap]
  constructor
  · rintro ⟨line, hline, heq⟩
    cases line <;> simp_all
  · exact fun hline ↦ ⟨_, hline, rfl⟩

theorem mem_denyRules (outcomes : ℕ → Outcomes) (file pattern : List UInt8) :
    pattern ∈ (readConfiguration outcomes file).denyRules.items ↔
      ∃ line ∈ confLines file.length file, secondWord [100, 101, 110, 121] line = some pattern := by
  rw [← mem_parseFile outcomes fun _ line ↦ parseLine_deny_iff _ line pattern, denyRules_items,
    List.reduceOption_mem_iff, denyLines, List.mem_filterMap]
  constructor
  · rintro ⟨line, hline, heq⟩
    cases line <;> simp_all
  · exact fun hline ↦ ⟨_, hline, rfl⟩

/-- For every file, the stored patterns are non-empty and made of address characters if and only if
the patterns of its allow and deny lines are. For every text, `patternBad` refuses it for its other
characters if and only if it has none. -/
theorem storedPatterns_iff (outcomes : ℕ → Outcomes) (file text : List UInt8) :
    ((∀ pattern, pattern ∈ (readConfiguration outcomes file).allowRules.items ∨
          pattern ∈ (readConfiguration outcomes file).denyRules.items → pattern ≠ [] ∧
          WellFormed pattern) ↔
      ∀ line ∈ confLines file.length file, ∀ pattern,
        secondWord [97, 108, 108, 111, 119] line = some pattern ∨ secondWord
        [100, 101, 110, 121] line = some pattern →
          WellFormed pattern) ∧
    ((¬ WellFormed text → patternBad text = true) ↔ WellFormed text) := by
  constructor
  · constructor
    · rintro hstored line hline pattern (hallow | hdeny)
      · exact (hstored pattern (Or.inl ((mem_allowRules ..).mpr ⟨line, hline, hallow⟩))).2
      · exact (hstored pattern (Or.inr ((mem_denyRules ..).mpr ⟨line, hline, hdeny⟩))).2
    · rintro hfile pattern (hallow | hdeny)
      · obtain ⟨line, hline, hword⟩ := (mem_allowRules ..).mp hallow
        exact ⟨ne_nil_of_secondWord hword, hfile line hline pattern (Or.inl hword)⟩
      · obtain ⟨line, hline, hword⟩ := (mem_denyRules ..).mp hdeny
        exact ⟨ne_nil_of_secondWord hword, hfile line hline pattern (Or.inr hword)⟩
  · constructor
    · intro hrefused
      by_contra hother
      rw [(patternBad_iff _).mp (hrefused hother)] at hother
      exact hother fun c hc ↦ absurd hc List.not_mem_nil
    · exact fun hformed hother ↦ absurd hformed hother

/-- A file with the lines `allow www*` and `deny a.b`. -/
def hostPatterns : List UInt8 :=
  [97, 108, 108, 111, 119, 32, 119, 119, 119, 42, 10, 100, 101, 110, 121, 32, 97, 46, 98, 10]

/-- The patterns `www*` and `a.b` are stored, and `patternBad` takes them for good ones. -/
theorem hostPatterns_stored :
    (readConfiguration everythingWorks hostPatterns).allowRules.items = [[119, 119, 119, 42]] ∧
      (readConfiguration everythingWorks hostPatterns).denyRules.items = [[97, 46, 98]] ∧
      ¬ WellFormed [119, 119, 119, 42] ∧ patternBad [119, 119, 119, 42] = false ∧
      ¬ WellFormed [97, 46, 98] ∧ patternBad [97, 46, 98] = false := by
  decide +kernel

end CrossBreeder.Rinetd
