import CrossBreeder.Rinetd.Connections

/-!
# Access control of rinetd

A peer may connect when it passes the global allow rules and those of the forwarding rule and no
deny rule of either matches it (`Access`).

`handleAccept` returns after `refuse` in the checks of the allow rules but not in those of the deny
rules, so that the local server is connected for a peer that has been denied. `accessControlled_iff`
says exactly for which peers the result is right.
-/

namespace CrossBreeder.Rinetd

open Foundation

/-! ### Who may connect -/

/-- A list of allow rules lets an address through if it is empty or one of the rules matches. -/
def Passes (text : List UInt8) (rules : List (List UInt8)) : Prop :=
  rules = [] ∨ ∃ rule ∈ rules, matches? text rule

/-- A list of deny rules denies an address if one of them matches. -/
def Denied (text : List UInt8) (rules : List (List UInt8)) : Prop :=
  ∃ rule ∈ rules, matches? text rule

structure Access (settings : Settings) (scope : Scope) (text : List UInt8) : Prop where
  globalAllow : Passes text settings.allowRules.leadingItems
  globalDeny : ¬ Denied text settings.denyRules.leadingItems
  allow : Passes text scope.allow
  deny : ¬ Denied text scope.deny

/-- The calls that `handleAccept` makes. -/
def acceptCalls (settings : Settings) (i : ℕ) (input : AcceptInput) (state : State) : List Call :=
  (handleAccept settings i input state).calls.drop state.calls.length

/-- The calls that follow from whether a peer may connect: a socket for the local server is asked
for exactly if it may, and connected to that server if the system grants it; otherwise the
descriptor of the peer is closed. -/
structure AccessControlled (access : Prop) (server : Server) (input : AcceptInput) (fd : ℤ)
    (calls : List Call) : Prop where
  opens : (∃ lo, .socket lo ∈ calls) ↔ access
  connects : access → input.socket = true → input.bind = true →
    ∃ lo, .connect lo server.localAddr server.toPort ∈ calls
  target : ∀ lo address port, .connect lo address port ∈ calls →
    address = server.localAddr ∧ port = server.toPort
  refuses : ¬ access → .close fd ∈ calls

/-! ### The checks -/

/-- The rules that a check reads. -/
def rulesAt (rules : List (List UInt8)) (offset total : ℕ) : List (List UInt8) :=
  (List.range total).map fun j ↦ rules.getD (offset + j) []

theorem allowed_iff (text : List UInt8) (rules : List (List UInt8)) (offset total : ℕ) :
    allowed text rules offset total = true ↔ Passes text (rulesAt rules offset total) := by
  simp [allowed, anyMatch, Passes, rulesAt]

theorem denyLoop_eq (text : List UInt8) (rules : List (List UInt8)) (offset total : ℕ)
    (work : Work) : denyLoop text rules offset total work = (rulesAt rules offset total).foldl
      (fun work rule ↦ if matches? text rule then refuse work else work) work := by
  rw [denyLoop, rulesAt, List.foldl_map]

theorem denyLoop_of_not_denied {text : List UInt8} {rules : List (List UInt8)} {offset total : ℕ}
    (h : ¬ Denied text (rulesAt rules offset total)) (work : Work) :
    denyLoop text rules offset total work = work := by
  rw [denyLoop_eq]
  generalize rulesAt rules offset total = list at h
  induction list with
  | nil => rfl
  | cons rule list ih =>
    rw [List.foldl_cons, if_neg fun hmatch ↦ h ⟨rule, List.mem_cons_self, hmatch⟩]
    exact ih fun ⟨other, hother, hmatch⟩ ↦ h ⟨other, List.mem_cons_of_mem _ hother, hmatch⟩

/-- A check of deny rules closes the descriptor of the peer once for each rule that matches. -/
theorem denyLoop_calls (text : List UInt8) (rules : List (List UInt8)) (offset total : ℕ)
    (work : Work) :
    ∃ n, (denyLoop text rules offset total work).calls =
          work.calls ++ List.replicate n (.close (work.slot.fd .re)) ∧
        (denyLoop text rules offset total work).slot.fd = work.slot.fd ∧
        (denyLoop text rules offset total work).nextFd = work.nextFd ∧
        (n = 0 ↔ ¬ Denied text (rulesAt rules offset total)) := by
  rw [denyLoop_eq]
  generalize rulesAt rules offset total = list
  induction list generalizing work with
  | nil => exact ⟨0, by simp, rfl, rfl, by simp [Denied]⟩
  | cons rule list ih =>
    rw [List.foldl_cons]
    by_cases hmatch : matches? text rule = true
    · rw [if_pos hmatch]
      obtain ⟨n, hcalls, hfd, hnext, -⟩ := ih (refuse work)
      refine ⟨n + 1, ?_, hfd, hnext, ?_⟩
      · rw [hcalls, List.replicate_succ]
        simp [refuse, Work.closesocket, Work.markClosed]
      · refine iff_of_false (Nat.succ_ne_zero n) fun hdenied ↦ hdenied ?_
        exact ⟨rule, List.mem_cons_self, hmatch⟩
    · rw [if_neg hmatch]
      obtain ⟨n, hcalls, hfd, hnext, hzero⟩ := ih work
      refine ⟨n, hcalls, hfd, hnext, hzero.trans (not_congr ?_)⟩
      simp [Denied, hmatch]

theorem openLocalFd_calls (server : Server) (input : AcceptInput) (work : Work) :
    ∃ lo tail, (openLocalFd server input work).calls = work.calls ++ .socket lo :: tail ∧
      (input.socket = true → input.bind = true →
        .connect lo server.localAddr server.toPort ∈ tail) ∧
      ∀ other address port, .connect other address port ∈ tail →
        address = server.localAddr ∧ port = server.toPort := by
  unfold openLocalFd
  by_cases hsocket : input.socket = true
  · by_cases hbind : input.bind = true
    · by_cases hconnect : input.connect = true
      · refine ⟨work.nextFd, [.connect work.nextFd server.localAddr server.toPort], ?_, ?_, ?_⟩
        · simp [hsocket, hbind, hconnect]
        · simp
        · simp
      · refine ⟨work.nextFd, [.connect work.nextFd server.localAddr server.toPort,
          .close work.nextFd, .close (work.slot.fd .re)], ?_, ?_, ?_⟩
        · simp [hsocket, hbind, hconnect, Work.closesocket, Work.markClosed]
        · simp
        · simp
    · refine ⟨work.nextFd, [.close work.nextFd, .close (work.slot.fd .re)], ?_, ?_, ?_⟩
      · simp [hsocket, hbind, Work.closesocket, Work.markClosed]
      · simp [hbind]
      · simp
  · refine ⟨invalidSocket, [.close (work.slot.fd .re)], ?_, ?_, ?_⟩
    · simp [hsocket, Work.closesocket, Work.markClosed]
    · simp [hsocket]
    · simp

/-! ### The four lists of a forwarding rule -/

def globalAllow (settings : Settings) : List (List UInt8) :=
  rulesAt settings.allowRules.items 0 settings.allowRules.leading

def globalDeny (settings : Settings) : List (List UInt8) :=
  rulesAt settings.denyRules.items 0 settings.denyRules.leading

/-- The allow rules of a forwarding rule, as they are checked. -/
def ownAllow (settings : Settings) (i : ℕ) : List (List UInt8) :=
  rulesAt settings.allowRules.items (settings.allowRules.windows.getD i ⟨0, 0⟩).offset
    (settings.allowRules.windows.getD i ⟨0, 0⟩).total

/-- The deny rules of a forwarding rule, as they are checked. -/
def ownDeny (settings : Settings) (i : ℕ) : List (List UInt8) :=
  rulesAt settings.denyRules.items (settings.denyRules.windows.getD i ⟨0, 0⟩).offset
    (settings.denyRules.windows.getD i ⟨0, 0⟩).total

theorem rulesAt_window {rules : Windowed (List UInt8)} {first : List (List UInt8)}
    {lists : List (List (List UInt8))} (hholds : rules.Holds first lists) {i : ℕ}
    {list : List (List UInt8)} (hlist : (rules.windows.map rules.itemsOf)[i]? = some list) :
    rulesAt rules.items (rules.windows.getD i ⟨0, 0⟩).offset (rules.windows.getD i ⟨0, 0⟩).total =
      list := by
  have hloaded : lists[i]? = some list := by rw [← hholds.map_itemsOf, hlist]
  rw [List.getElem?_map] at hlist
  obtain ⟨window, hwindow, -⟩ := Option.map_eq_some_iff.mp hlist
  have hread : rules.windows.getD i ⟨0, 0⟩ = window := by
    rw [List.getD_eq_getElem?_getD, hwindow, Option.getD_some]
  rw [hread]
  exact hholds.map_getD_window hwindow hloaded []

/-- The lists that are checked for a forwarding rule of a loaded configuration are those of its
scope. -/
theorem rules_of_scope {outcomes : ℕ → Outcomes} {file : List UInt8} {i : ℕ} {scope : Scope}
    (h : (readConfiguration outcomes file).scopes[i]? = some scope) :
    (readConfiguration outcomes file).servers.getD i default = scope.server ∧
      ownAllow (readConfiguration outcomes file) i = scope.allow ∧
      ownDeny (readConfiguration outcomes file) i = scope.deny := by
  rw [Settings.scopes, List.getElem?_zipWith_eq_some] at h
  obtain ⟨server, ⟨allow, deny⟩, hserver, hrules, rfl⟩ := h
  obtain ⟨hallow, hdeny⟩ := List.getElem?_zip_eq_some.mp hrules
  refine ⟨?_, rulesAt_window (holds_allowRules outcomes file) hallow,
    rulesAt_window (holds_denyRules outcomes file) hdeny⟩
  rw [List.getD_eq_getElem?_getD, hserver, Option.getD_some]

theorem global_rules (outcomes : ℕ → Outcomes) (file : List UInt8) :
    globalAllow (readConfiguration outcomes file) =
        (readConfiguration outcomes file).allowRules.leadingItems ∧
      globalDeny (readConfiguration outcomes file) =
        (readConfiguration outcomes file).denyRules.leadingItems := by
  have hallow := holds_allowRules outcomes file
  have hdeny := holds_denyRules outcomes file
  rw [hallow.leadingItems_eq, hdeny.leadingItems_eq]
  exact ⟨hallow.map_getD_leading [], hdeny.map_getD_leading []⟩

/-! ### The calls of handleAccept -/

/-- The calls for a new connection: the peer is closed when a check of allow rules is not passed,
and otherwise the local server is connected, after the peer has been closed once for each deny rule
that matches. -/
theorem placeConnection_calls (settings : Settings) (i : ℕ) (input : AcceptInput)
    (address : UInt8 × UInt8 × UInt8 × UInt8) (fd : ℤ) (work : Work) :
    let text := addressText address input.behind
    ∃ n calls, (placeConnection settings i input address fd work).calls =
        work.calls ++ (List.replicate n (.close fd) ++ calls) ∧
      ((¬ (Passes text (globalAllow settings) ∧ Passes text (ownAllow settings i)) ∧
          calls = [.close fd]) ∨
        (Passes text (globalAllow settings) ∧ Passes text (ownAllow settings i) ∧
          (n = 0 ↔ ¬ Denied text (globalDeny settings) ∧ ¬ Denied text (ownDeny settings i)) ∧
          ∃ lo tail, calls = .socket lo :: tail ∧
            (input.socket = true → input.bind = true →
              .connect lo (settings.servers.getD i default).localAddr
                (settings.servers.getD i default).toPort ∈ tail) ∧
            ∀ other target port, .connect other target port ∈ tail →
              target = (settings.servers.getD i default).localAddr ∧
                port = (settings.servers.getD i default).toPort)) := by
  intro text
  unfold placeConnection
  extract_lets allow deny allowWindow denyWindow start checked
  have hfd : start.slot.fd .re = fd := rfl
  by_cases hglobal : allowed text allow.items 0 allow.leading = true
  · obtain ⟨n, hn, hnfd, -, hnzero⟩ := denyLoop_calls text deny.items 0 deny.leading start
    rw [hfd] at hn
    by_cases hown : allowed text allow.items allowWindow.offset allowWindow.total = true
    · obtain ⟨m, hm, -, -, hmzero⟩ := denyLoop_calls text deny.items denyWindow.offset
        denyWindow.total checked
      obtain ⟨lo, tail, htail, hconnect, htarget⟩ := openLocalFd_calls
        (settings.servers.getD i default) input (denyLoop text deny.items denyWindow.offset
          denyWindow.total checked)
      refine ⟨n + m, .socket lo :: tail, ?_, Or.inr ⟨(allowed_iff _ _ _ _).mp hglobal,
        (allowed_iff _ _ _ _).mp hown, ?_, lo, tail, rfl, hconnect, htarget⟩⟩
      · rw [hnfd, hfd] at hm
        rw [if_neg (by simp [hglobal]), if_neg (by simp [hown]), htail, hm, hn, List.replicate_add]
        simp only [List.append_assoc]
        rfl
      · rw [Nat.add_eq_zero_iff, hnzero, hmzero]
        rfl
    · refine ⟨n, [.close fd], ?_, Or.inl ⟨fun h ↦ hown ((allowed_iff _ _ _ _).mpr h.2), rfl⟩⟩
      rw [if_neg (by simp [hglobal]), if_pos (by simp [hown])]
      show checked.calls ++ [.close (checked.slot.fd .re)] = _
      rw [hn, hnfd, hfd, List.append_assoc]
      rfl
  · refine ⟨0, [.close fd], ?_, Or.inl ⟨fun h ↦ hglobal ((allowed_iff _ _ _ _).mpr h.1), rfl⟩⟩
    rw [if_pos (by simp [hglobal])]
    rfl

/-! ### Access control -/

/-- The calls of `handleAccept` are those that follow from whether the peer may connect exactly when
there is a slot for the connection, and the peer does not get past the checks of the allow rules or
no deny rule matches it. -/
theorem accessControlled_iff {outcomes : ℕ → Outcomes} {file : List UInt8} {i : ℕ} {scope : Scope}
    (hscope : (readConfiguration outcomes file).scopes[i]? = some scope) (input : AcceptInput)
    (state : State) (hslots : state.slots ≠ [])
    {address : UInt8 × UInt8 × UInt8 × UInt8} (hpeer : input.peer = some address) :
    let settings := readConfiguration outcomes file
    let text := addressText address input.behind
    AccessControlled (Access settings scope text) scope.server input state.nextFd
        (acceptCalls settings i input state) ↔
      SlotAvailable input state ∧
        (¬ Passes text settings.allowRules.leadingItems ∨ ¬ Passes text scope.allow ∨
          (¬ Denied text settings.denyRules.leadingItems ∧ ¬ Denied text scope.deny)) := by
  intro settings text
  obtain ⟨hserver, hallow, hdeny⟩ := rules_of_scope hscope
  obtain ⟨hglobalAllow, hglobalDeny⟩ := global_rules outcomes file
  rcases handleAccept_cases settings i hslots hpeer with
    ⟨havailable, slots, index, slot, -, hslot, -, haccept⟩ | ⟨hshortage, haccept⟩
  · obtain ⟨n, calls, hplace, hcases⟩ := placeConnection_calls settings i input address state.nextFd
      ⟨slot, state.nextFd + 1, state.calls ++ [.accept state.nextFd]⟩
    have hnew : acceptCalls settings i input state =
        .accept state.nextFd :: (List.replicate n (.close state.nextFd) ++ calls) := by
      rw [acceptCalls, haccept, State.onSlot_of_getElem? hslot]
      show List.drop _ (placeConnection _ _ _ _ _ _).calls = _
      rw [hplace, List.append_assoc, List.drop_left]
      rfl
    rw [hnew]
    rw [hserver, hallow, hdeny, hglobalAllow, hglobalDeny] at hcases
    rcases hcases with ⟨hrefused, rfl⟩ | ⟨hglobal, hown, hzero, lo, tail, rfl, hconnect, htarget⟩
    · refine iff_of_true ⟨?_, ?_, ?_, ?_⟩ ⟨havailable, ?_⟩
      · refine iff_of_false ?_ fun haccess ↦ hrefused ⟨haccess.globalAllow, haccess.allow⟩
        simp
      · exact fun haccess ↦ absurd ⟨haccess.globalAllow, haccess.allow⟩ hrefused
      · simp
      · simp
      · rw [not_and_or] at hrefused
        exact hrefused.imp_right Or.inl
    · constructor
      · intro hcontrolled
        have haccess := hcontrolled.opens.mp ⟨lo, by simp⟩
        exact ⟨havailable, Or.inr (Or.inr ⟨haccess.globalDeny, haccess.deny⟩)⟩
      · rintro ⟨-, hcondition⟩
        have hnotDenied := (hcondition.resolve_left (not_not.mpr hglobal)).resolve_left
          (not_not.mpr hown)
        have haccess : Access settings scope text :=
          ⟨hglobal, hnotDenied.1, hown, hnotDenied.2⟩
        refine ⟨iff_of_true ⟨lo, by simp⟩ haccess, fun _ hsocket hbind ↦ ⟨lo, ?_⟩, ?_,
          fun h ↦ absurd haccess h⟩
        · simp [hconnect hsocket hbind]
        · intro other target port hcall
          refine htarget other target port ?_
          simpa using hcall
  · have hnew : acceptCalls settings i input state = [.accept state.nextFd] := by
      rw [acceptCalls, haccept, List.drop_left]
    rw [hnew]
    refine iff_of_false ?_ fun h ↦ hshortage h.1
    intro hcontrolled
    by_cases haccess : Access settings scope text
    · obtain ⟨lo, hlo⟩ := hcontrolled.opens.mpr haccess
      simp at hlo
    · have hclose := hcontrolled.refuses haccess
      simp at hclose

/-- Every call of the system succeeds. -/
def allSucceed (_ : ℕ) : Outcomes where
  service _ := none
  host _ := some 16777343
  inetAddr _ := 0
  socket := true
  bind := true
  listen := true

/-- The file with the lines `deny 9.*` and `a 1 b 2`. -/
def denyNine : List UInt8 :=
  [100, 101, 110, 121, 32, 57, 46, 42, 10, 97, 32, 49, 32, 98, 32, 50, 10]

theorem scopes_denyNine :
    (readConfiguration allSucceed denyNine).scopes[0]? =
      some ⟨⟨16777343, [97], 1, [98], 2⟩, [], []⟩ := by decide

/-- A peer that no rule denies is connected to the local server. -/
theorem accessControlled_eight :
    AccessControlled
        (Access (readConfiguration allSucceed denyNine) ⟨⟨16777343, [97], 1, [98], 2⟩, [], []⟩
          (addressText (8, 1, 1, 1) []))
        ⟨16777343, [97], 1, [98], 2⟩ (connectionFrom (8, 1, 1, 1)) 0
        (acceptCalls (readConfiguration allSucceed denyNine) 0 (connectionFrom (8, 1, 1, 1))
          ⟨[closedSlot], 0, []⟩) := by
  refine (accessControlled_iff scopes_denyNine (connectionFrom (8, 1, 1, 1)) ⟨[closedSlot], 0, []⟩
    (List.cons_ne_nil closedSlot []) rfl).mpr ⟨Or.inr rfl, Or.inr (Or.inr ⟨?_, ?_⟩)⟩
  · have hrules : (readConfiguration allSucceed denyNine).denyRules.leadingItems =
      [[57, 46, 42]] := by
      decide
    rintro ⟨rule, hrule, hmatch⟩
    rw [hrules, List.mem_singleton] at hrule
    rw [hrule] at hmatch
    exact absurd hmatch (by decide)
  · rintro ⟨rule, hrule, -⟩
    exact absurd hrule List.not_mem_nil

/-- A peer that the global deny rule matches is closed, and the local server is connected all the
same. -/
theorem denied_peer_is_connected :
    acceptCalls (readConfiguration allSucceed denyNine) 0 (connectionFrom (9, 1, 1, 1))
          ⟨[closedSlot], 0, []⟩ =
        [.accept 0, .close 0, .socket 1, .connect 1 16777343 2] ∧
      ¬ AccessControlled
        (Access (readConfiguration allSucceed denyNine) ⟨⟨16777343, [97], 1, [98], 2⟩, [], []⟩
          (addressText (9, 1, 1, 1) []))
        ⟨16777343, [97], 1, [98], 2⟩ (connectionFrom (9, 1, 1, 1)) 0
        (acceptCalls (readConfiguration allSucceed denyNine) 0 (connectionFrom (9, 1, 1, 1))
          ⟨[closedSlot], 0, []⟩) := by
  have hcalls : acceptCalls (readConfiguration allSucceed denyNine) 0 (connectionFrom (9, 1, 1, 1))
      ⟨[closedSlot], 0, []⟩ = [.accept 0, .close 0, .socket 1, .connect 1 16777343 2] := by decide
  refine ⟨hcalls, fun h ↦ ?_⟩
  rw [hcalls] at h
  have haccess := h.opens.mp ⟨1, by decide⟩
  exact haccess.globalDeny ⟨[57, 46, 42], by decide, by decide⟩

end CrossBreeder.Rinetd
