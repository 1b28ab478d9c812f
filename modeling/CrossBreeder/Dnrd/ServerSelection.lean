import CrossBreeder.Dnrd.PendingQueries

/-!
# The current server of a domain

`nextActive_spec` says what the walk of `next_active` finds in any ring: an active server if there
is one. `DomInv` is what every operation keeps of a domain, and `selection_of_reachable` says in
which states the domains can be and what `handle_query` then does.
-/

namespace CrossBreeder.Dnrd

open Foundation

/-! ### The walk of `next_active` -/

/-- The node at a position of a ring is active. The positions behind the ring have no active node.
-/
def ActiveAt (ring : List SrvNode) (k : ℕ) : Prop := (ring.getD k default).inactive = 0

instance (ring : List SrvNode) (k : ℕ) : Decidable (ActiveAt ring k) :=
  inferInstanceAs (Decidable (_ = _))

variable {ring : List SrvNode}

theorem ActiveAt.lt_length {k : ℕ} (h : ActiveAt ring k) : k < ring.length := by
  by_contra hge
  rw [ActiveAt, List.getD_eq_getElem?_getD, List.getElem?_eq_none (Nat.not_lt.mp hge)] at h
  exact absurd h (by decide)

theorem nextSrv_mod (hring : 0 < ring.length) (s : ℕ) :
    nextSrv ring (s % ring.length) = (s + 1) % ring.length := by
  have hlt := Nat.mod_lt s hring
  unfold nextSrv
  rw [← Nat.mod_add_mod s ring.length 1]
  split_ifs with hnext
  · exact (Nat.mod_eq_of_lt hnext).symm
  · have hlast : s % ring.length + 1 = ring.length := by omega
    rw [hlast, Nat.mod_self]

/-- The loop of `next_active` from the node `j + 1` behind `start`, when the nodes between have been
found inactive: it ends at an active node, or at `start` after a full round of inactive ones. -/
theorem nextActiveLoop_spec {start : ℕ} (hstart : start < ring.length)
    (fuel : ℕ) :
    ∀ j < ring.length, ring.length ≤ j + 1 + fuel →
      (∀ i < j, ¬ ActiveAt ring ((start + 1 + i) % ring.length)) →
      ActiveAt ring (nextActiveLoop ring start fuel ((start + 1 + j) % ring.length)) ∨
      nextActiveLoop ring start fuel ((start + 1 + j) % ring.length) = start ∧
        ∀ i < ring.length, ¬ ActiveAt ring ((start + 1 + i) % ring.length) := by
  -- the last node of the round is `start` itself
  have hround : ∀ j, j + 1 = ring.length → (start + 1 + j) % ring.length = start := by
    intro j hj
    rw [Nat.add_assoc, Nat.add_comm 1 j, hj, Nat.add_mod_right, Nat.mod_eq_of_lt hstart]
  have hfull : ∀ j, j + 1 = ring.length → ¬ ActiveAt ring start →
      (∀ i < j, ¬ ActiveAt ring ((start + 1 + i) % ring.length)) →
      ∀ i < ring.length, ¬ ActiveAt ring ((start + 1 + i) % ring.length) := by
    intro j hj hinactive hbefore i hi
    rcases Nat.lt_or_ge i j with hlt | hge
    · exact hbefore i hlt
    · rw [hround i (by omega)]
      exact hinactive
  induction fuel with
  | zero =>
    intro j hj hfuel hbefore
    have hlast : j + 1 = ring.length := by omega
    rw [hround j hlast]
    by_cases hactive : ActiveAt ring start
    · exact Or.inl hactive
    · exact Or.inr ⟨rfl, hfull j hlast hactive hbefore⟩
  | succ fuel ih =>
    intro j hj hfuel hbefore
    simp only [nextActiveLoop]
    split_ifs with hwalk
    · have hnext : j + 1 < ring.length := by
        by_contra hlast
        exact hwalk.2 (hround j (by omega))
      rw [nextSrv_mod (by omega), Nat.add_assoc (start + 1)]
      refine ih (j + 1) hnext (by omega) fun i hi ↦ ?_
      rcases Nat.lt_or_eq_of_le (Nat.le_of_lt_succ hi) with hlt | rfl
      · exact hbefore i hlt
      · exact hwalk.1
    · by_cases hactive : ActiveAt ring ((start + 1 + j) % ring.length)
      · exact Or.inl hactive
      · have hstop : (start + 1 + j) % ring.length = start := by
          by_contra hne
          exact hwalk ⟨hactive, hne⟩
        have hlast : j + 1 = ring.length := by
          by_contra hne
          rcases Nat.lt_or_ge (start + 1 + j) ring.length with hlt | hge
          · rw [Nat.mod_eq_of_lt hlt] at hstop
            omega
          · rw [Nat.mod_eq_sub_mod hge, Nat.mod_eq_of_lt (by omega)] at hstop
            omega
        rw [hstop] at hactive ⊢
        exact Or.inr ⟨rfl, hfull j hlast hactive hbefore⟩

variable {d : DomNode}

/-- `next_active` in a ring that holds the node it starts from: the result is an active node, and
there is no result only if no node is active. -/
theorem nextActive_spec (hstart : d.current.getD 0 < d.srvlist.length) :
    (nextActive d = none ∧ ∀ k, ¬ ActiveAt d.srvlist k) ∨
      ∃ c, nextActive d = some c ∧ ActiveAt d.srvlist c := by
  have hpos : 0 < d.srvlist.length := by omega
  have hfirst : nextSrv d.srvlist (d.current.getD 0) =
      (d.current.getD 0 + 1 + 0) % d.srvlist.length := by
    rw [Nat.add_zero, ← nextSrv_mod hpos, Nat.mod_eq_of_lt hstart]
  have hloop := nextActiveLoop_spec hstart d.srvlist.length 0 hpos (by omega) (by simp)
  rw [← hfirst] at hloop
  unfold nextActive
  simp only
  rcases hloop with hactive | ⟨hend, hnone⟩
  · exact Or.inr ⟨_, if_neg (not_not_intro hactive), hactive⟩
  · have hall : ∀ k, ¬ ActiveAt d.srvlist k := by
      intro k hk
      have hlt := hk.lt_length
      -- node `k` is passed on the round from `start`
      obtain ⟨i, hi, hik⟩ : ∃ i < d.srvlist.length,
          (d.current.getD 0 + 1 + i) % d.srvlist.length = k := by
        rcases Nat.lt_or_ge (d.current.getD 0) k with hafter | hbefore
        · refine ⟨k - d.current.getD 0 - 1, by omega, ?_⟩
          rw [Nat.mod_eq_of_lt (by omega)]
          omega
        · refine ⟨k + d.srvlist.length - d.current.getD 0 - 1, by omega, ?_⟩
          rw [Nat.mod_eq_sub_mod (by omega), Nat.mod_eq_of_lt (by omega)]
          omega
      exact hnone i hi (hik ▸ hk)
    refine Or.inl ⟨if_pos ?_, hall⟩
    exact hall _

/-! ### What every function keeps of a domain -/

/-- The invariant of a domain: the head of its ring is not active, and the current server is active;
without servers the head may be the current one. -/
structure DomInv (d : DomNode) : Prop where
  head : ¬ ActiveAt d.srvlist 0
  pos : 0 < d.srvlist.length
  current : ∀ c, d.current = some c → ActiveAt d.srvlist c ∨ c = 0 ∧ d.srvlist.length = 1

/-- The current server was chosen in this state: it is active, or there is none because no server is
active. -/
def Chosen (d : DomNode) : Prop :=
  (d.current = none ∧ ∀ k, ¬ ActiveAt d.srvlist k) ∨ ∃ c, d.current = some c ∧ ActiveAt d.srvlist c

namespace DomInv

variable {d : DomNode}

theorem start_lt (h : DomInv d) : d.current.getD 0 < d.srvlist.length := by
  have hpos := h.pos
  cases hcurrent : d.current with
  | none => exact hpos
  | some c =>
    rcases h.current c hcurrent with hactive | ⟨rfl, -⟩
    · exact hactive.lt_length
    · exact hpos

theorem of_chosen (hhead : ¬ ActiveAt d.srvlist 0) (hpos : 0 < d.srvlist.length)
    (hchosen : Chosen d) : DomInv d := by
  refine ⟨hhead, hpos, fun c hc ↦ ?_⟩
  rcases hchosen with ⟨hnone, -⟩ | ⟨c', hc', hactive⟩
  · exact absurd (hnone.symm.trans hc) (by simp)
  · obtain rfl : c' = c := Option.some.inj (hc'.symm.trans hc)
    exact Or.inl hactive

theorem chosen_next (h : DomInv d) : Chosen (setCurrent d (nextActive d)) := by
  rcases nextActive_spec h.start_lt with ⟨hnone, hall⟩ | ⟨c, hc, hactive⟩
  · exact Or.inl ⟨hnone, hall⟩
  · exact Or.inr ⟨c, hc, hactive⟩

theorem forget (h : DomInv d) : DomInv (setCurrent d none) :=
  ⟨h.head, h.pos, fun _ hc ↦ absurd hc (by simp [setCurrent])⟩

theorem chosen_select (h : DomInv d) : Chosen (selectCurrent d) := by
  unfold selectCurrent
  split_ifs
  · exact h.chosen_next
  · exact h.forget.chosen_next

theorem select (h : DomInv d) : DomInv (selectCurrent d) := by
  have hring : (selectCurrent d).srvlist = d.srvlist := by
    unfold selectCurrent
    split_ifs <;> rfl
  refine of_chosen ?_ ?_ h.chosen_select
  · rw [hring]
    exact h.head
  · rw [hring]
    exact h.pos

/-- An update of a node that is not the head keeps the invariant if it leaves the current server
active. -/
theorem modify (h : DomInv d) {srv : ℕ} (hsrv : srv ≠ 0) (update : SrvNode → SrvNode)
    (hcurrent : d.current = some srv → ActiveAt d.srvlist srv →
      (update (d.srvlist.getD srv default)).inactive = 0) :
    DomInv { d with srvlist := d.srvlist.modify srv update } := by
  have hread : ∀ k, srv ≠ k → (d.srvlist.modify srv update).getD k default =
      d.srvlist.getD k default := by
    intro k hk
    rw [getD_modify, if_neg fun hboth ↦ hk hboth.1]
  constructor
  · show ¬ (_ = _)
    rw [hread 0 hsrv]
    exact h.head
  · rw [List.length_modify]
    exact h.pos
  · intro c hc
    rcases h.current c hc with hactive | ⟨rfl, hone⟩
    · refine Or.inl ?_
      show _ = _
      by_cases hk : srv = c
      · subst hk
        rw [getD_modify, if_pos ⟨rfl, hactive.lt_length⟩]
        exact hcurrent hc hactive
      · rw [hread c hk]
        exact hactive
    · exact Or.inr ⟨rfl, by rw [List.length_modify]; exact hone⟩

theorem current_ne_head (h : DomInv d) (hservers : 1 < d.srvlist.length) : d.current ≠ some 0 := by
  intro hcurrent
  rcases h.current 0 hcurrent with hactive | ⟨-, hone⟩
  · exact h.head hactive
  · omega

end DomInv

@[simp] theorem length_srvlist_deactivateCurrent (now : ℕ) (d : DomNode) :
    (deactivateCurrent now d).srvlist.length = d.srvlist.length := by
  show (markInactive now d).srvlist.length = _
  unfold markInactive
  split
  · rfl
  · exact List.length_modify ..

theorem deactivateCurrent_chosen (hhead : ¬ ActiveAt d.srvlist 0)
    (hstart : d.current.getD 0 < d.srvlist.length) (hcurrent : d.current ≠ some 0) (now : ℕ) :
    Chosen (deactivateCurrent now d) ∧ DomInv (deactivateCurrent now d) := by
  have hmarked : ¬ ActiveAt (markInactive now d).srvlist 0 ∧
      (markInactive now d).current.getD 0 < (markInactive now d).srvlist.length := by
    unfold markInactive
    cases hc : d.current with
    | none => exact ⟨hhead, by simpa [hc] using hstart⟩
    | some c =>
      have hne : c ≠ 0 := by
        rintro rfl
        exact hcurrent hc
      refine ⟨?_, by simpa [hc] using hstart⟩
      show ¬ (_ = _)
      rw [getD_modify, if_neg fun hboth ↦ hne hboth.1]
      exact hhead
  have hchosen : Chosen (deactivateCurrent now d) := by
    rcases nextActive_spec hmarked.2 with ⟨hnone, hall⟩ | ⟨c, hc, hactive⟩
    · exact Or.inl ⟨hnone, hall⟩
    · exact Or.inr ⟨c, hc, hactive⟩
  refine ⟨hchosen, .of_chosen hmarked.1 ?_ hchosen⟩
  rw [length_srvlist_deactivateCurrent]
  omega

theorem DomInv.deactivate (h : DomInv d) (hservers : 1 < d.srvlist.length) (now : ℕ) :
    Chosen (deactivateCurrent now d) ∧ DomInv (deactivateCurrent now d) :=
  deactivateCurrent_chosen h.head h.start_lt (h.current_ne_head hservers) now

@[simp] theorem length_srvlist_selectCurrent (d : DomNode) :
    (selectCurrent d).srvlist.length = d.srvlist.length := by
  unfold selectCurrent
  split_ifs <;> rfl

@[simp] theorem length_srvlist_chooseServer (cfg : Config) (now : ℕ) (d : DomNode) :
    (chooseServer cfg now d).srvlist.length = d.srvlist.length := by
  unfold chooseServer timeoutCurrent
  split
  · simp
  · simp only
    split_ifs <;> simp

theorem DomInv.choose (h : DomInv d) (hservers : 1 < d.srvlist.length) (cfg : Config)
    (now : ℕ) : Chosen (chooseServer cfg now d) ∧ DomInv (chooseServer cfg now d) := by
  have hselected : 1 < (selectCurrent d).srvlist.length := by
    rw [length_srvlist_selectCurrent]
    exact hservers
  unfold chooseServer timeoutCurrent
  split
  · exact ⟨h.chosen_select, h.select⟩
  · simp only
    split_ifs
    · exact h.select.deactivate hselected now
    · exact ⟨h.chosen_select, h.select⟩

/-! ### The domain list -/

def ringLengths (doms : List DomNode) : List ℕ := doms.map fun d ↦ d.srvlist.length

theorem getD_ringLengths (doms : List DomNode) (d : ℕ) :
    (doms.getD d default).srvlist.length = (ringLengths doms).getD d 1 := by
  simp only [ringLengths, List.getD_eq_getElem?_getD, List.getElem?_map]
  cases doms[d]? <;> rfl

def DomsInv (doms : List DomNode) : Prop := ∀ d ∈ doms, DomInv d

variable {doms : List DomNode}

theorem DomsInv.getD (h : DomsInv doms) (d : ℕ) :
    DomInv (doms.getD d default) := by
  rw [List.getD_eq_getElem?_getD]
  cases hd : doms[d]? with
  | none => exact ⟨by decide, by decide, fun _ hc ↦ absurd hc (by simp [allocDomnode, default])⟩
  | some dom => exact h dom (List.mem_of_getElem? hd)

/-- The new list of domains keeps the invariant, and its rings are as long as before. -/
def DomsKept (doms doms' : List DomNode) : Prop :=
  DomsInv doms' ∧ ringLengths doms' = ringLengths doms

theorem DomsInv.kept (h : DomsInv doms) : DomsKept doms doms := ⟨h, rfl⟩

theorem DomsKept.trans {first second third : List DomNode} (h : DomsKept first second)
    (h' : DomsKept second third) : DomsKept first third := ⟨h'.1, h'.2.trans h.2⟩

theorem DomsInv.modify (h : DomsInv doms) (d : ℕ)
    (update : DomNode → DomNode) (hupdate : DomInv (update (doms.getD d default)))
    (hlength : ∀ dom, (update dom).srvlist.length = dom.srvlist.length) :
    DomsKept doms (doms.modify d update) := by
  refine ⟨fun dom hdom ↦ ?_, map_modify_of_comp _ _ hlength doms d⟩
  rcases mem_modify_cases hdom with hold | ⟨old, hold, rfl⟩
  · exact h dom hold
  · rw [List.getD_eq_getElem?_getD, hold] at hupdate
    exact hupdate

variable {id : SrvId}

theorem DomsInv.modifySrv (h : DomsInv doms) (hsrv : id.srv ≠ 0)
    (update : SrvNode → SrvNode)
    (hcurrent : (doms.getD id.dom default).current = some id.srv →
      (srvAt doms id).inactive = 0 → (update (srvAt doms id)).inactive = 0) :
    DomsKept doms (modifySrv doms id update) := by
  refine h.modify id.dom _ ?_ fun dom ↦ List.length_modify ..
  exact (h.getD id.dom).modify hsrv update hcurrent

theorem DomsInv.markSent (h : DomsInv doms) (hsrv : id.srv ≠ 0)
    (now : ℕ) : DomsKept doms (markSent now id doms) :=
  h.modifySrv hsrv _ fun _ hactive ↦ hactive

theorem DomsInv.markAlive (h : DomsInv doms) (hsrv : id.srv ≠ 0) :
    DomsKept doms (markAlive id doms) :=
  h.modifySrv hsrv _ fun _ _ ↦ rfl

variable {cfg : Config}

theorem sendLoop_kept {now d : ℕ} {dst : Option SrvId} (sends : List Bool) :
    ∀ {doms doms' : List DomNode}, DomsInv doms → 1 < (doms.getD d default).srvlist.length →
      sendLoop cfg now d sends doms = .ok (doms', dst) → DomsKept doms doms' := by
  induction sends with
  | nil =>
    intro doms doms' h hservers hloop
    simp only [sendLoop] at hloop
    split at hloop
    · obtain ⟨rfl, -⟩ : doms = doms' ∧ none = dst := by simpa using hloop
      exact h.kept
    · simp at hloop
  | cons sent sends ih =>
    intro doms doms' h hservers hloop
    simp only [sendLoop] at hloop
    cases hcurrent : (doms.getD d default).current with
    | none =>
      simp only [hcurrent] at hloop
      obtain ⟨rfl, -⟩ : doms = doms' ∧ none = dst := by simpa using hloop
      exact h.kept
    | some c =>
      simp only [hcurrent] at hloop
      split_ifs at hloop with hsent hinterval
      · obtain ⟨rfl, -⟩ : Dnrd.markSent now ⟨d, c⟩ doms = doms' ∧ some ⟨d, c⟩ = dst := by
          simpa using hloop
        refine h.markSent ?_ now
        rintro (rfl : c = 0)
        exact (h.getD d).current_ne_head hservers hcurrent
      · have hkept : DomsKept doms (doms.modify d (deactivateCurrent now)) :=
          h.modify d _ ((h.getD d).deactivate hservers now).2 (length_srvlist_deactivateCurrent now)
        refine hkept.trans (ih hkept.1 ?_ hloop)
        rw [getD_ringLengths, hkept.2, ← getD_ringLengths]
        exact hservers
      · exact ih h hservers hloop

theorem current_modifySrv (doms : List DomNode) (id : SrvId) (update : SrvNode → SrvNode) (d : ℕ) :
    ((modifySrv doms id update).getD d default).current = (doms.getD d default).current := by
  unfold modifySrv
  rw [getD_modify]
  split_ifs <;> rfl

variable {s : State}

/-- The loop body of `deactivate_servers`: the server is marked, and if it is the current one, the
next is chosen. -/
theorem deactivateSrv_kept {now : ℕ} (h : DomsInv s.doms) :
    DomsKept s.doms (deactivateSrv cfg now id s).doms := by
  unfold deactivateSrv
  simp only [current_modifySrv]
  split_ifs with hdue hcurrent
  · obtain ⟨-, -, hsrv, -⟩ := hdue
    -- the two updates of the domain as one: in between, the current server may be inactive
    have hboth : (modifySrv s.doms id fun node ↦ { node with inactive := now }).modify id.dom
        (deactivateCurrent now) = s.doms.modify id.dom fun d ↦ deactivateCurrent now
          { d with srvlist := d.srvlist.modify id.srv fun node ↦ { node with inactive := now } } :=
      List.modify_modify_eq ..
    rw [hboth]
    refine h.modify id.dom _ ?_ fun dom ↦ by simp
    refine (deactivateCurrent_chosen ?_ ?_ ?_ now).2
    · show ¬ (_ = _)
      rw [getD_modify, if_neg fun hzero ↦ hsrv hzero.1]
      exact (h.getD id.dom).head
    · simpa using (h.getD id.dom).start_lt
    · show (s.doms.getD id.dom default).current ≠ some 0
      rw [hcurrent]
      exact fun hzero ↦ hsrv (Option.some.inj hzero)
  · obtain ⟨-, -, hsrv, -⟩ := hdue
    exact h.modifySrv hsrv _ fun hcurrent' ↦ absurd hcurrent' hcurrent
  · exact h.kept

/-! ### The decision of `handle_query` -/

/-- A server of the domain, not the head of its ring, that is active. -/
def IsActiveServer (d : DomNode) (c : ℕ) : Prop :=
  c ≠ 0 ∧ c < d.srvlist.length ∧ (d.srvlist.getD c default).inactive = 0

instance (d : DomNode) (c : ℕ) : Decidable (IsActiveServer d c) :=
  inferInstanceAs (Decidable (_ ∧ _ ∧ _))

theorem DomInv.activeAt_iff (h : DomInv d) (c : ℕ) :
    ActiveAt d.srvlist c ↔ IsActiveServer d c := by
  constructor
  · intro hactive
    refine ⟨?_, hactive.lt_length, hactive⟩
    rintro rfl
    exact h.head hactive
  · exact fun hserver ↦ hserver.2.2

/-- The domain that `handle_query` selects for a request that neither the master nor the cache
answers. -/
def selectedDomain (cfg : Config) (env : Env) (s : State) (buffer : List UInt8) (len : ℕ) : ℕ :=
  searchSubdomnode s.doms ((cacheLookup cfg s.doms env.cacheStack buffer len env.now
    s.cache).buffer.drop packetDatabegin) len

def answeredFirst (cfg : Config) (env : Env) (s : State) (buffer : List UInt8) (len : ℕ) : Bool :=
  (masterLookup cfg s.db env.masterStack (buffer.take len)).isSome ∨
    0 < (cacheLookup cfg s.doms env.cacheStack buffer len env.now s.cache).len

theorem noSrvlist_iff (ring : List SrvNode) : noSrvlist ring = true ↔ ring.length ≤ 1 := by
  unfold noSrvlist nextSrv
  rw [decide_eq_true_eq]
  by_cases hservers : 0 + 1 < ring.length
  · rw [if_pos hservers]
    exact iff_of_false (Nat.succ_ne_zero 0) (Nat.not_le.mpr hservers)
  · rw [if_neg hservers]
    exact iff_of_true rfl (Nat.not_lt.mp hservers)

@[simp] theorem srvfailAnswer_doms (msg : Packet) (doms : List DomNode) (cache : Cache) :
    (srvfailAnswer msg doms cache).doms = doms := by
  unfold srvfailAnswer
  split <;> rfl

/-- What `handle_query` does behind the lookups: it forwards the request to an active server of the
domain, or answers with a server failure because the domain has none left. -/
theorem routeQuery_cases (h : DomsInv doms) (cfg : Config) (now : ℕ)
    (buffer : List UInt8) (len : ℕ) (cache : Cache) :
    ∃ doms', DomsKept doms doms' ∧
      ((routeQuery cfg now buffer len doms cache =
          ⟨.forward (searchSubdomnode doms (buffer.drop packetDatabegin) len), buffer.take len,
            doms', cache⟩ ∧
        ∃ c, (doms'.getD (searchSubdomnode doms (buffer.drop packetDatabegin) len)
        default).current =
            some c ∧
          IsActiveServer
            (doms'.getD (searchSubdomnode doms (buffer.drop packetDatabegin) len) default) c) ∨
      (routeQuery cfg now buffer len doms cache = srvfailAnswer (buffer.take len) doms' cache ∧
        ∀ c, ¬ IsActiveServer
          (doms'.getD (searchSubdomnode doms (buffer.drop packetDatabegin) len) default) c)) := by
  unfold routeQuery
  simp only
  generalize searchSubdomnode doms (buffer.drop packetDatabegin) len = d
  by_cases hempty : noSrvlist (doms.getD d default).srvlist = true
  · refine ⟨doms, h.kept, Or.inr ⟨if_pos hempty, fun c hc ↦ ?_⟩⟩
    have hone := (noSrvlist_iff _).mp hempty
    have hzero := hc.1
    have hlt := hc.2.1
    omega
  · rw [if_neg hempty]
    have hservers : 1 < (doms.getD d default).srvlist.length :=
      Nat.not_le.mp (mt (noSrvlist_iff _).mpr hempty)
    have hrange : d < doms.length := by
      by_contra hge
      rw [List.getD_eq_getElem?_getD, List.getElem?_eq_none (Nat.not_lt.mp hge)] at hservers
      exact absurd hservers (by decide)
    obtain ⟨hchosen, hinv⟩ := (h.getD d).choose hservers cfg now
    have hread : (doms.modify d (chooseServer cfg now)).getD d default =
        chooseServer cfg now (doms.getD d default) := by
      rw [getD_modify, if_pos ⟨rfl, hrange⟩]
    refine ⟨doms.modify d (chooseServer cfg now),
      h.modify d _ hinv (length_srvlist_chooseServer cfg now), ?_⟩
    rw [hread]
    rcases hchosen with ⟨hnone, hall⟩ | ⟨c, hc, hactive⟩
    · refine Or.inr ⟨by rw [hnone], fun c hc ↦ hall c ?_⟩
      exact (hinv.activeAt_iff c).mpr hc
    · exact Or.inl ⟨by rw [hc], c, hc, (hinv.activeAt_iff c).mp hactive⟩

/-- `handle_query` keeps the domains in order, and a request that it forwards goes to an active
server of the domain it selects. -/
theorem handleQuery_kept (h : DomsInv s.doms) (cfg : Config) (env : Env)
    (buffer : List UInt8) (len : ℕ) :
    DomsKept s.doms (handleQuery cfg env s buffer len).doms ∧
    ∀ d, (handleQuery cfg env s buffer len).decision = .forward d →
      d = selectedDomain cfg env s buffer len ∧
      ∃ c, ((handleQuery cfg env s buffer len).doms.getD d default).current = some c ∧
        IsActiveServer ((handleQuery cfg env s buffer len).doms.getD d default) c := by
  unfold handleQuery
  cases masterLookup cfg s.db env.masterStack (buffer.take len) with
  | some packet => exact ⟨h.kept, fun d hd ↦ absurd hd (by simp)⟩
  | none =>
    simp only
    split_ifs with hhit
    · exact ⟨h.kept, fun d hd ↦ absurd hd (by simp)⟩
    · obtain ⟨doms', hkept, ⟨hroute, hserver⟩ | ⟨hroute, -⟩⟩ := routeQuery_cases h cfg env.now
        (cacheLookup cfg s.doms env.cacheStack buffer len env.now s.cache).buffer len
        (cacheLookup cfg s.doms env.cacheStack buffer len env.now s.cache).cache
      · rw [hroute]
        refine ⟨hkept, fun d hd ↦ ?_⟩
        obtain rfl : selectedDomain cfg env s buffer len = d := Decision.forward.inj hd
        exact ⟨rfl, hserver⟩
      · rw [hroute, srvfailAnswer_doms]
        exact ⟨hkept, fun d hd ↦ absurd hd (srvfailAnswer_decision _ _ _ d)⟩

theorem length_le_overlay (buffer : List UInt8) (offset : ℕ) (bytes : List UInt8) :
    buffer.length ≤ (overlay buffer offset bytes).length := by
  simp only [overlay, List.length_append, List.length_take, List.length_drop]
  omega

theorem length_le_cacheLookup (cfg : Config) (doms : List DomNode) (stack buffer : List UInt8)
    (len now : ℕ) (cache : Cache) :
    buffer.length ≤ (cacheLookup cfg doms stack buffer len now cache).buffer.length := by
  unfold cacheLookup
  split_ifs
  · exact le_rfl
  · split
    · exact le_rfl
    · split_ifs
      · exact le_rfl
      · split
        · exact le_rfl
        · exact length_le_overlay _ _ _

variable {env : Env}

/-- A request that neither the master nor the cache answers is answered with a server failure
exactly when the selected domain has no active server left. -/
theorem handleQuery_srvfail_iff (h : DomsInv s.doms)
    {buffer : List UInt8} {len : ℕ} (hfirst : answeredFirst cfg env s buffer len = false)
    (hlen : 4 ≤ (buffer.take len).length) :
    ((handleQuery cfg env s buffer len).decision = .answer ∧
      setSrvfail ((cacheLookup cfg s.doms env.cacheStack buffer len env.now s.cache).buffer.take
        len) = some (handleQuery cfg env s buffer len).msg) ↔
    ∀ c, ¬ IsActiveServer ((handleQuery cfg env s buffer len).doms.getD
      (selectedDomain cfg env s buffer len) default) c := by
  obtain ⟨hmaster, hcache⟩ : masterLookup cfg s.db env.masterStack (buffer.take len) = none ∧
      ¬ 0 < (cacheLookup cfg s.doms env.cacheStack buffer len env.now s.cache).len := by
    simpa [answeredFirst] using hfirst
  have hlong : 4 ≤ ((cacheLookup cfg s.doms env.cacheStack buffer len env.now
      s.cache).buffer.take len).length := by
    have hle := length_le_cacheLookup cfg s.doms env.cacheStack buffer len env.now s.cache
    rw [List.length_take] at hlen ⊢
    omega
  unfold handleQuery
  rw [hmaster]
  simp only [if_neg hcache]
  obtain ⟨doms', -, ⟨hroute, c, -, hserver⟩ | ⟨hroute, hnone⟩⟩ := routeQuery_cases h cfg env.now
    (cacheLookup cfg s.doms env.cacheStack buffer len env.now s.cache).buffer len
    (cacheLookup cfg s.doms env.cacheStack buffer len env.now s.cache).cache
  · rw [hroute]
    refine iff_of_false (fun hanswer ↦ absurd hanswer.1 (by simp)) fun hnone ↦ hnone c hserver
  · rw [hroute, srvfailAnswer_doms]
    refine iff_of_true ?_ hnone
    unfold srvfailAnswer setSrvfail
    rw [if_neg (Nat.not_lt.mpr hlong)]
    exact ⟨rfl, rfl⟩

/-! ### Runs -/

/-- A call of `handle_query` alone, a send for a pending query, or an event of the relay. -/
inductive ServerEvent
  | handle (env : Env) (buffer : List UInt8) (len : ℕ)
  | send (env : Env) (k : ℕ) (msg : Packet)
  | relay (event : Event)

/-- The state after an event, if the program does not stop. -/
def serverStep (cfg : Config) (s : State) : ServerEvent → Option State
  | .handle env buffer len =>
    some { s with
      doms := (handleQuery cfg env s buffer len).doms
      cache := (handleQuery cfg env s buffer len).cache }
  | .send env k msg => (send2current cfg env k msg s).toOption.map Prod.fst
  | .relay event => nextState cfg s event

/-- The functions that choose and deactivate servers, as a system of calls in any order. -/
def serverCalls (cfg : Config) : System State ServerEvent :=
  System.ofStep IsStartup (serverStep cfg)

/-- The invariant of the calls: the domains are in order, no query was sent to a head, and the
domain of a query has servers. -/
structure ServerInv (s : State) : Prop where
  doms : DomsInv s.doms
  srv : ∀ q ∈ s.queries.qlist, q.srv.srv ≠ 0
  servers : ∀ q ∈ s.queries.qlist, ∀ d, q.domain = some d →
    1 < (s.doms.getD d default).srvlist.length

/-- The invariant after a step that keeps the domains in order, and all of whose entries come from
entries with the same server and domain. -/
theorem ServerInv.of_kept {s next : State} (h : ServerInv s) (hkept : DomsKept s.doms next.doms)
    (hentries : ∀ q' ∈ next.queries.qlist, ∃ q ∈ s.queries.qlist, q'.srv = q.srv ∧
      q'.domain = q.domain) : ServerInv next := by
  refine ⟨hkept.1, fun q' hq' ↦ ?_, fun q' hq' d hd ↦ ?_⟩
  · obtain ⟨q, hq, hsrv, -⟩ := hentries q' hq'
    rw [hsrv]
    exact h.srv q hq
  · obtain ⟨q, hq, -, hdomain⟩ := hentries q' hq'
    rw [getD_ringLengths, hkept.2, ← getD_ringLengths]
    exact h.servers q hq d (hdomain ▸ hd)

theorem send2current_eq_ok {k : ℕ} {msg : Packet} {s s' : State}
    {sent : Bool} (h : send2current cfg env k msg s = .ok (s', sent)) :
    ∃ q d dst, s.queries.qlist[k]? = some q ∧ q.domain = some d ∧
      sendLoop cfg env.now d env.sends s.doms = .ok (s'.doms, dst) ∧
      s'.queries.qlist = s.queries.qlist.modify k (completeEntry none dst msg) := by
  unfold send2current at h
  cases hentry : s.queries.qlist[k]? with
  | none => simp [hentry] at h
  | some q =>
    cases hdomain : q.domain with
    | none => simp [hentry, hdomain] at h
    | some d =>
      simp only [hentry, Option.bind_some, hdomain] at h
      cases hloop : sendLoop cfg env.now d env.sends s.doms with
      | error stop => simp [hloop] at h
      | ok result =>
        obtain ⟨doms, dst⟩ := result
        refine ⟨q, d, dst, rfl, hdomain, ?_⟩
        cases dst with
        | none =>
          simp only [hloop] at h
          obtain ⟨rfl, -⟩ := Prod.mk.inj (Except.ok.inj h)
          refine ⟨hloop, ?_⟩
          rw [completeEntry_none, List.modify_id]
        | some dst =>
          simp only [hloop] at h
          obtain ⟨rfl, -⟩ := Prod.mk.inj (Except.ok.inj h)
          exact ⟨hloop, rfl⟩

variable {outcome : Outcome}

theorem forwardAdded_doms {added : Added}
    (h : forwardAdded cfg env s added = .ok outcome) :
    ∃ q d dst, added.table.qlist[added.index]? = some q ∧ q.domain = some d ∧
      sendLoop cfg env.now d env.sends s.doms = .ok (outcome.state.doms, dst) := by
  unfold forwardAdded at h
  cases hsend : send2current cfg env added.index added.msg { s with queries := added.table } with
  | error stop => simp [hsend] at h
  | ok result =>
    obtain ⟨s', sent⟩ := result
    obtain ⟨q, d, dst, hq, hdomain, hloop, -⟩ := send2current_eq_ok hsend
    refine ⟨q, d, dst, hq, hdomain, ?_⟩
    cases sent with
    | true =>
      simp only [hsend] at h
      obtain rfl := Except.ok.inj h
      exact hloop
    | false =>
      simp only [hsend] at h
      split_ifs at h
      · obtain rfl := Except.ok.inj h
        exact hloop
      · obtain rfl := Except.ok.inj h
        exact hloop

variable {datagram : Packet}

theorem requestSubmission_server {client : SockAddr}
    {sub : Submission} (h : DomsInv s.doms)
    (hsub : requestSubmission cfg env client datagram s = some sub) :
    sub.srv.srv ≠ 0 ∧ ∀ d, sub.dom = some d → 1 < (s.doms.getD d default).srvlist.length := by
  obtain ⟨-, d, hdecision, rfl⟩ := requestSubmission_eq_some hsub
  obtain ⟨hkept, hforward⟩ := handleQuery_kept h cfg env (datagram.take udpMaxsize ++ env.tail)
    (datagram.take udpMaxsize).length
  obtain ⟨-, c, hcurrent, hactive⟩ := hforward d hdecision
  constructor
  · show (((handledRequest cfg env datagram s).doms.getD d default).current.getD 0) ≠ 0
    rw [handledRequest, hcurrent]
    exact hactive.1
  · intro d' hd'
    obtain rfl : d = d' := Option.some.inj hd'
    rw [getD_ringLengths, ← hkept.2, ← getD_ringLengths]
    have hzero := hactive.1
    have hlt := hactive.2.1
    omega

theorem udpHandleRequest_doms {client : SockAddr}
    (h : ServerInv s)
    (hstep : udpHandleRequest cfg env client datagram s = .ok outcome) :
    DomsKept s.doms outcome.state.doms := by
  obtain ⟨hhandled, -⟩ := handleQuery_kept h.doms cfg env (datagram.take udpMaxsize ++ env.tail)
    (datagram.take udpMaxsize).length
  cases hsub : requestSubmission cfg env client datagram s with
  | none =>
    unfold requestSubmission at hsub
    unfold udpHandleRequest at hstep
    split_ifs at hsub hstep with hcheck
    · obtain rfl := Except.ok.inj hstep
      exact h.doms.kept
    · cases hdecision : (handledRequest cfg env datagram s).decision with
      | bogus =>
        simp only [hdecision] at hstep
        obtain rfl := Except.ok.inj hstep
        exact hhandled
      | answer =>
        simp only [hdecision] at hstep
        obtain rfl := Except.ok.inj hstep
        exact hhandled
      | forward d => simp [hdecision] at hsub
  | some sub =>
    rw [udpHandleRequest_forward hsub] at hstep
    obtain ⟨-, hservers⟩ := requestSubmission_server h.doms hsub
    cases hadded : sub.add cfg s.queries with
    | none =>
      simp only [hadded] at hstep
      obtain rfl := Except.ok.inj hstep
      exact hhandled
    | some added =>
      simp only [hadded] at hstep
      obtain ⟨q, d, dst, hq, hdomain, hloop⟩ := forwardAdded_doms hstep
      refine hhandled.trans (sendLoop_kept env.sends hhandled.1 ?_ hloop)
      rw [getD_ringLengths, hhandled.2, ← getD_ringLengths]
      rcases queryAdd_spec hadded with ⟨old, hold, -, -, htable⟩ |
        ⟨-, -, hindex, port, new, -, hnew, -, htable⟩
      · rw [htable, List.getElem?_modify_eq, hold] at hq
        obtain rfl := Option.some.inj hq
        exact h.servers old (List.mem_of_getElem? hold) d hdomain
      · rw [htable, hindex, List.getElem?_concat_length] at hq
        obtain rfl := Option.some.inj hq
        rw [hnew] at hdomain
        exact hservers d hdomain

theorem retrySrv_kept (h : DomsInv s.doms) :
    DomsKept s.doms (retrySrv cfg env id s).doms := by
  unfold retrySrv
  split_ifs with hdue
  · obtain ⟨-, hsrv, -, hinactive, -⟩ := of_decide_eq_true hdue
    have hmarked : DomsKept s.doms
        (modifySrv s.doms id fun node ↦ { node with inactive := env.now }) :=
      h.modifySrv hsrv _ fun _ hactive ↦ absurd hactive hinactive
    unfold udpSendDummy
    split
    · exact hmarked
    · simp only
      split_ifs
      · exact hmarked.trans (hmarked.1.markSent hsrv env.now)
      · exact hmarked
  · exact h.kept

theorem udpHandleReply_kept {k source : ℕ}
    (h : ServerInv s) :
    DomsKept s.doms (udpHandleReply cfg env k source datagram s).state.doms := by
  unfold udpHandleReply
  split
  · exact h.doms.kept
  · rename_i q hq
    have hsrv := h.srv q (List.mem_of_getElem? hq)
    simp only
    split_ifs
    · exact h.doms.kept
    · split
      · exact h.doms.markAlive hsrv
      · exact h.doms.markAlive hsrv

theorem step_kept {event : Event} (h : ServerInv s)
    (hstep : step cfg s event = .ok outcome) : DomsKept s.doms outcome.state.doms := by
  cases event with
  | request env client datagram => exact udpHandleRequest_doms h hstep
  | reply env k source datagram =>
    obtain rfl := Except.ok.inj hstep
    exact udpHandleReply_kept h
  | retry env id =>
    obtain rfl := Except.ok.inj hstep
    exact retrySrv_kept h.doms
  | deactivate now id =>
    obtain rfl := Except.ok.inj hstep
    exact deactivateSrv_kept h.doms
  | receiveError k =>
    obtain rfl := Except.ok.inj hstep
    exact h.doms.kept
  | timeout now =>
    obtain rfl := Except.ok.inj hstep
    exact h.doms.kept
  | expire now =>
    obtain rfl := Except.ok.inj hstep
    exact h.doms.kept
  | reload db =>
    obtain rfl := Except.ok.inj hstep
    exact h.doms.kept

theorem serverInv_step {event : Event}
    (h : ServerInv s) (hstep : step cfg s event = .ok outcome) : ServerInv outcome.state := by
  have hkept := step_kept h hstep
  have hentry : ∀ q ∈ outcome.state.queries.qlist, q.srv.srv ≠ 0 ∧
      ∀ d, q.domain = some d → 1 < (s.doms.getD d default).srvlist.length := by
    intro q' hq'
    rcases step_entries hstep hq' with hold | ⟨sub, ttl, hsub, ⟨q, hq, -, rfl⟩ |
      ⟨-, port, q, -, hq, rfl⟩⟩
    · exact ⟨h.srv q' hold, h.servers q' hold⟩
    · rw [completeEntry_srv, completeEntry_domain]
      exact ⟨h.srv q hq, h.servers q hq⟩
    · rw [completeEntry_srv, completeEntry_domain, hq]
      rcases Event.submission_cases hsub with ⟨env, client, datagram, rfl, hrequest⟩ |
        ⟨env, id, rfl, hretry⟩
      · exact requestSubmission_server h.doms hrequest
      · have hdue : retryDue cfg env.now id s = true := by
          by_contra hno
          simp [retrySubmission, hno] at hretry
        rw [retrySubmission_eq_some hretry]
        obtain ⟨-, hsrv, -⟩ := of_decide_eq_true hdue
        exact ⟨hsrv, fun d hd ↦ absurd hd (by simp [newQuery])⟩
  refine ⟨hkept.1, fun q hq ↦ (hentry q hq).1, fun q hq d hd ↦ ?_⟩
  rw [getD_ringLengths, hkept.2, ← getD_ringLengths]
  exact (hentry q hq).2 d hd

theorem srvlist_foldl_addSrv (addrs : List ℕ) (d : DomNode) :
    (addrs.foldl addSrv d).srvlist =
      d.srvlist ++ addrs.map fun addr ↦ { allocSrvnode with addr := addr, inactive := 0 } := by
  induction addrs generalizing d with
  | nil => simp
  | cons addr addrs ih =>
    rw [List.foldl_cons, ih]
    simp [addSrv]

theorem domInv_configuredDomain (domain : Option (List UInt8)) (roundrobin : Bool)
    (addrs : List ℕ) : DomInv (configuredDomain domain roundrobin addrs) := by
  have hring : (configuredDomain domain roundrobin addrs).srvlist = allocSrvnode ::
      addrs.map fun addr ↦ { allocSrvnode with addr := addr, inactive := 0 } :=
    srvlist_foldl_addSrv addrs _
  have hcurrent : (configuredDomain domain roundrobin addrs).current =
      some (nextSrv (configuredDomain domain roundrobin addrs).srvlist 0) := rfl
  constructor
  · rw [hring]
    show ¬ allocSrvnode.inactive = 0
    decide
  · rw [hring]
    exact Nat.succ_pos _
  · rw [hcurrent, hring]
    intro c hc
    obtain rfl := Option.some.inj hc
    cases addrs with
    | nil => exact Or.inr ⟨rfl, rfl⟩
    | cons addr addrs =>
      refine Or.inl ?_
      have hnext : nextSrv (allocSrvnode :: List.map
          (fun addr ↦ { allocSrvnode with addr := addr, inactive := 0 }) (addr :: addrs)) 0 = 1 :=
        if_pos (by simp)
      rw [hnext]
      rfl

theorem serverInv_serverStep {s next : State} {event : ServerEvent} (h : ServerInv s)
    (hstep : serverStep cfg s event = some next) : ServerInv next := by
  cases event with
  | handle env buffer len =>
    obtain rfl := Option.some.inj hstep
    refine h.of_kept (handleQuery_kept h.doms cfg env buffer len).1 fun q hq ↦ ?_
    exact ⟨q, hq, rfl, rfl⟩
  | send env k msg =>
    obtain ⟨⟨s', sent⟩, hsend, rfl⟩ := Option.map_eq_some_iff.mp hstep
    have hok : send2current cfg env k msg s = .ok (s', sent) := by
      cases hcase : send2current cfg env k msg s with
      | error stop => simp [hcase, Except.toOption] at hsend
      | ok result => simpa [hcase, Except.toOption] using hsend
    obtain ⟨q, d, dst, hq, hdomain, hloop, hqlist⟩ := send2current_eq_ok hok
    have hservers := h.servers q (List.mem_of_getElem? hq) d hdomain
    refine h.of_kept (sendLoop_kept env.sends h.doms hservers hloop) fun q' hq' ↦ ?_
    rw [hqlist] at hq'
    rcases mem_modify_cases hq' with hold | ⟨old, hold, rfl⟩
    · exact ⟨q', hold, rfl, rfl⟩
    · exact ⟨old, List.mem_of_getElem? hold, completeEntry_srv .., completeEntry_domain ..⟩
  | relay event =>
    have hrelay : (Dnrd.relay cfg).step s event next := hstep
    obtain ⟨outcome, hok, rfl⟩ := exists_outcome_of_step hrelay
    exact serverInv_step h hok

theorem serverInv_of_reachable
    (hreach : Reachable (serverCalls cfg) (fun _ _ ↦ True) s) : ServerInv s := by
  refine hreach.invariant ServerInv ?_ ?_
  · rintro s ⟨doms, db, hdoms, rfl⟩
    refine ⟨fun d hd ↦ ?_, by simp [startup, queryInit], by simp [startup, queryInit]⟩
    obtain ⟨domain, roundrobin, addrs, rfl⟩ := hdoms d hd
    exact domInv_configuredDomain domain roundrobin addrs
  · intro s event next _ hinv _ hstep
    exact serverInv_serverStep hinv hstep

/-- In every state that the calls reach, the current server of a domain is null, or the head of a
ring without servers, or an active server, and the head of the ring is marked inactive.
`handle_query` forwards a request only with an active server of the domain it selects, and a request
that neither the master nor the cache answers gets a server failure exactly when that domain has no
active server left. -/
theorem selection_of_reachable {cfg : Config} {s : State}
    (hreach : Reachable (serverCalls cfg) (fun _ _ ↦ True) s) :
    (∀ d ∈ s.doms, (d.srvlist.getD 0 default).inactive ≠ 0 ∧
      (d.current = none ∨ d.current = some 0 ∧ d.srvlist.length = 1 ∨
        ∃ c, d.current = some c ∧ IsActiveServer d c)) ∧
    ∀ env buffer len,
      (∀ d, (handleQuery cfg env s buffer len).decision = .forward d →
        d = selectedDomain cfg env s buffer len ∧
        ∃ c, ((handleQuery cfg env s buffer len).doms.getD d default).current = some c ∧
          IsActiveServer ((handleQuery cfg env s buffer len).doms.getD d default) c) ∧
      (answeredFirst cfg env s buffer len = false → 4 ≤ (buffer.take len).length →
        ((handleQuery cfg env s buffer len).decision = .answer ∧
          setSrvfail ((cacheLookup cfg s.doms env.cacheStack buffer len env.now
            s.cache).buffer.take len) = some (handleQuery cfg env s buffer len).msg ↔
          ∀ c, ¬ IsActiveServer ((handleQuery cfg env s buffer len).doms.getD
            (selectedDomain cfg env s buffer len) default) c)) := by
  have hinv := serverInv_of_reachable hreach
  refine ⟨fun d hd ↦ ?_, fun env buffer len ↦ ⟨?_, ?_⟩⟩
  · have hdom := hinv.doms d hd
    refine ⟨hdom.head, ?_⟩
    cases hcurrent : d.current with
    | none => exact Or.inl rfl
    | some c =>
      rcases hdom.current c hcurrent with hactive | ⟨rfl, hone⟩
      · exact Or.inr (Or.inr ⟨c, rfl, (hdom.activeAt_iff c).mp hactive⟩)
      · exact Or.inr (Or.inl ⟨rfl, hone⟩)
  · exact (handleQuery_kept hinv.doms cfg env buffer len).2
  · exact fun hfirst hlen ↦ handleQuery_srvfail_iff hinv.doms hfirst hlen

/-- After the send to the first of two servers has failed, the next request is forwarded, and the
current server is an active one. -/
theorem selection_of_reachable_failed_send :
    ∃ s, Reachable (serverCalls defaultConfig) (fun _ _ ↦ True) s ∧
      ∃ c, ((handleQuery defaultConfig (zeroedEnv 101 0 0 []) s (requestFor 0 8 98) 19).doms.getD 0
          default).current = some c ∧
        IsActiveServer ((handleQuery defaultConfig (zeroedEnv 101 0 0 []) s (requestFor 0 8 98)
          19).doms.getD 0 default) c := by
  have hrun : (runSteps (serverStep defaultConfig) twoServers
      [.relay (.request (zeroedEnv 100 40000 1 [false, true]) ⟨5, 6000⟩ (requestFor 0 7 97))]).any
      (fun s ↦ (handleQuery defaultConfig (zeroedEnv 101 0 0 []) s (requestFor 0 8 98)
        19).decision = .forward 0) = true := by decide
  obtain ⟨s, hreach, htest⟩ := exists_reachable_of_runSteps isStartup_twoServers hrun
  have hforward := of_decide_eq_true htest
  exact ⟨s, hreach, (((selection_of_reachable hreach).2 _ _ _).1 0 hforward).2⟩

end CrossBreeder.Dnrd
