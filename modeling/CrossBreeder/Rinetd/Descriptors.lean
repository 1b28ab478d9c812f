import CrossBreeder.Foundation.ListUpdate
import CrossBreeder.Rinetd.AccessControl
import CrossBreeder.Rinetd.Relaying

/-!
# Ownership of descriptors in rinetd

A descriptor that `accept` or `openLocalFd` has obtained belongs to one end of one slot until it is
closed. The number of times it has been closed and the number of open ends that hold it add up to
one (`Owned.balance`), so that it is closed at most once, and a descriptor that has not been closed
is held by a slot that cannot be used again.

`descriptorsOwned_of_reachable` is about the runs without such connections, and
`denied_peer_is_closed_twice` is a run with one.
-/

namespace CrossBreeder.Rinetd

open Foundation

/-! ### Ownership -/

/-- A descriptor that `accept` or the socket call of `openLocalFd` has returned. -/
def Obtained (calls : List Call) (fd : ℤ) : Prop :=
  .accept fd ∈ calls ∨ (.socket fd ∈ calls ∧ fd ≠ invalidSocket)

def HeldOpen (state : State) (fd : ℤ) : Prop :=
  ∃ slot ∈ state.slots, slot.used = true ∧ slot.coClosed = false ∧
    ∃ side, slot.fd side = fd ∧ slot.closed side = false

/-- A slot that has been used is closed exactly when both ends are, and every descriptor that has
been obtained has been closed once, or is held by a slot in use and has not been closed. -/
structure DescriptorsOwned (state : State) : Prop where
  flags : ∀ slot ∈ state.slots, slot.used = true →
    (slot.coClosed = true ↔ slot.closed .re = true ∧ slot.closed .lo = true)
  owned : ∀ fd, Obtained state.calls fd →
    (state.calls.count (.close fd) = 1 ∧ ¬ HeldOpen state fd) ∨
      (state.calls.count (.close fd) = 0 ∧ HeldOpen state fd)

/-- The system has memory for more slots when they are needed, and no deny rule is reached that
matches the peer. -/
def CleanAccept (settings : Settings) (i : ℕ) (input : AcceptInput) : Prop :=
  input.memory = true ∧ ∀ address, input.peer = some address →
    let text := addressText address input.behind
    ¬ Passes text (globalAllow settings) ∨
      (¬ Denied text (globalDeny settings) ∧
        (¬ Passes text (ownAllow settings i) ∨ ¬ Denied text (ownDeny settings i)))

/-- A pass all of whose new connections are clean. -/
def CleanPass (settings : Settings) (_ : State) (input : PassInput) : Prop :=
  ∀ i < settings.servers.length, input.acceptable i = true →
    CleanAccept settings i (input.accepts i)

/-! ### The balance -/

def heldBy (slot : Slot) (side : Side) (fd : ℤ) : ℕ :=
  if slot.closed side = false ∧ slot.fd side = fd then 1 else 0

def held (slot : Slot) (fd : ℤ) : ℕ :=
  if slot.used = true then heldBy slot .re fd + heldBy slot .lo fd else 0

def below (next : ℕ) (fd : ℤ) : ℕ := if 0 ≤ fd ∧ fd < next then 1 else 0

def closes (calls : List Call) (fd : ℤ) : ℕ := calls.count (.close fd)

theorem closes_concat_close (calls : List Call) (other fd : ℤ) :
    closes (calls ++ [.close other]) fd = closes calls fd + if other = fd then 1 else 0 := by
  simp [closes, List.count_append, List.count_singleton]

theorem closes_concat {call : Call} (h : ∀ other, call ≠ .close other) (calls : List Call)
    (fd : ℤ) : closes (calls ++ [call]) fd = closes calls fd := by
  simp [closes, List.count_append, h fd]

theorem obtained_concat (calls : List Call) (call : Call) (fd : ℤ) :
    Obtained (calls ++ [call]) fd ↔
      Obtained calls fd ∨ call = .accept fd ∨ (call = .socket fd ∧ fd ≠ invalidSocket) := by
  simp only [Obtained, List.mem_append, List.mem_singleton, eq_comm (a := call)]
  grind

theorem obtained_concat_of_ne {call : Call} (haccept : ∀ fd, call ≠ .accept fd)
    (hsocket : ∀ fd, call ≠ .socket fd) (calls : List Call) (fd : ℤ) :
    Obtained (calls ++ [call]) fd ↔ Obtained calls fd := by
  simp [obtained_concat, haccept, hsocket]

theorem below_succ (next : ℕ) (fd : ℤ) :
    below (next + 1) fd = below next fd + if (next : ℤ) = fd then 1 else 0 := by
  unfold below
  split_ifs <;> omega

variable {slot : Slot}

theorem held_of_closed (h : ∀ side, slot.closed side = true) (fd : ℤ) :
    held slot fd = 0 := by
  simp [held, heldBy, h]

/-- The work on an open slot keeps the balance of closings and holdings and obtains nothing. -/
structure Settles (old new : Work) : Prop where
  balance : ∀ fd, closes new.calls fd + held new.slot fd = closes old.calls fd + held old.slot fd
  nextFd : new.nextFd = old.nextFd
  obtained : ∀ fd, Obtained new.calls fd → Obtained old.calls fd

theorem Settles.refl (work : Work) : Settles work work := ⟨fun _ ↦ rfl, rfl, fun _ h ↦ h⟩

theorem Settles.trans {old middle new : Work} (h : Settles old middle) (h' : Settles middle new) :
    Settles old new :=
  ⟨fun fd ↦ (h'.balance fd).trans (h.balance fd), h'.nextFd.trans h.nextFd,
    fun fd hfd ↦ h.obtained fd (h'.obtained fd hfd)⟩

def ClosedBoth (slot : Slot) : Prop :=
  slot.coClosed = true → slot.closed .re = true ∧ slot.closed .lo = true

theorem Settles.of_eq {old new : Work} (hcalls : new.calls = old.calls)
    (hnext : new.nextFd = old.nextFd) (hfd : new.slot.fd = old.slot.fd)
    (hclosed : new.slot.closed = old.slot.closed) (hused : new.slot.used = old.slot.used) :
    Settles old new := by
  refine ⟨fun fd ↦ ?_, hnext, fun fd h ↦ ?_⟩
  · simp only [held, heldBy, hcalls, hfd, hclosed, hused]
  · rw [← hcalls]
    exact h

variable {side : Side}

theorem Settles.of_close {old new : Work} (hused : old.slot.used = true)
    (hopen : old.slot.closed side = false)
    (hcalls : new.calls = old.calls ++ [.close (old.slot.fd side)])
    (hnext : new.nextFd = old.nextFd) (hfd : new.slot.fd = old.slot.fd)
    (hclosed : new.slot.closed = Function.update old.slot.closed side true)
    (hnew : new.slot.used = old.slot.used) : Settles old new := by
  refine ⟨fun fd ↦ ?_, hnext, fun fd h ↦ ?_⟩
  · rw [hcalls, closes_concat_close]
    rcases side with _ | _
    · simp [held, heldBy, hfd, hclosed, hnew, hused, hopen]
      omega
    · simp [held, heldBy, hfd, hclosed, hnew, hused, hopen]
      omega
  · rw [hcalls] at h
    simpa [Obtained] using h

/-! ### The handlers -/

structure Serving (start work : Work) : Prop where
  used : work.slot.used = true
  intact : Intact work.slot
  closedBoth : ClosedBoth work.slot
  settles : Settles start work

theorem closedBoth_update {old new : Slot} (h : ClosedBoth old)
    (hflag : new.coClosed = old.coClosed)
    (hclosed : new.closed = Function.update old.closed side true) : ClosedBoth new := by
  intro hnew
  rw [hflag] at hnew
  obtain ⟨hre, hlo⟩ := h hnew
  rw [hclosed]
  exact ⟨update_closed _ _ _ hre, update_closed _ _ _ hlo⟩

variable {start work : Work}

theorem Serving.handleCloseFrom (h : Serving start work)
    (hopen : work.slot.closed side = false) : Serving start (handleCloseFrom side work) where
  used := h.used
  intact := intact_handleCloseFrom h.intact side
  closedBoth := closedBoth_update h.closedBoth rfl rfl
  settles := h.settles.trans (Settles.of_close h.used hopen rfl rfl rfl rfl rfl)

theorem Serving.handleRead (h : Serving start work)
    (hopen : work.slot.closed side = false) (result : RecvResult) :
    Serving start (handleRead side result work) := by
  have hintact := intact_handleRead h.intact hopen result
  revert hintact
  unfold Rinetd.handleRead
  rcases result with bytes | _ | _
  · dsimp only
    split_ifs
    · exact fun _ ↦ h
    · exact fun _ ↦ h.handleCloseFrom hopen
    · exact fun hintact ↦ ⟨h.used, hintact, h.closedBoth,
        h.settles.trans (Settles.of_eq rfl rfl rfl rfl rfl)⟩
  · dsimp only
    split_ifs
    · exact fun _ ↦ h
    · exact fun _ ↦ h
  · dsimp only
    split_ifs
    · exact fun _ ↦ h
    · exact fun _ ↦ h.handleCloseFrom hopen

theorem Serving.handleWrite (h : Serving start work)
    (hopen : work.slot.closed side = false) (result : SendResult) :
    Serving start (handleWrite side result work) := by
  have hintact := intact_handleWrite h.intact hopen result
  by_cases hdone : work.slot.coClosing = true ∧
      (work.slot.buffer side.other).wpos = (work.slot.buffer side.other).rpos
  · -- the end is closed together with the slot, since the other end is closed already
    have hother := h.intact.closed_other hdone.1 hopen
    have hclosed : Function.update work.slot.closed side true .re = true ∧
        Function.update work.slot.closed side true .lo = true := by
      rcases side with _ | _
      · exact ⟨Function.update_self _ _ _, update_closed _ _ _ hother⟩
      · exact ⟨update_closed _ _ _ hother, Function.update_self _ _ _⟩
    revert hintact
    unfold Rinetd.handleWrite
    rw [if_pos hdone]
    intro hintact
    exact ⟨h.used, hintact, fun _ ↦ hclosed,
      h.settles.trans (Settles.of_close h.used hopen rfl rfl rfl rfl rfl)⟩
  · revert hintact
    unfold Rinetd.handleWrite
    rw [if_neg hdone]
    rcases result with bytes | _ | _
    · exact fun hintact ↦ ⟨h.used, hintact, h.closedBoth,
        h.settles.trans (Settles.of_eq rfl rfl rfl rfl rfl)⟩
    · exact fun _ ↦ h
    · exact fun _ ↦ h.handleCloseFrom hopen

/-- A slot that ownership can rely on. -/
def FlagsRight (slot : Slot) : Prop :=
  slot.used = true → (slot.coClosed = true ↔ slot.closed .re = true ∧ slot.closed .lo = true)

theorem settles_serveSlot (readfds writefds : ℤ → Bool) (recv : Side → RecvResult)
    (send : Side → SendResult) (work : Work) (hsound : SlotSound work.slot)
    (hflags : FlagsRight work.slot) :
    Settles work (serveSlot readfds writefds recv send work) ∧
      FlagsRight (serveSlot readfds writefds recv send work).slot := by
  by_cases hclosed : work.slot.coClosed = true
  · rw [serveSlot, if_pos hclosed]
    exact ⟨Settles.refl work, hflags⟩
  obtain ⟨hused, hintact⟩ := hsound.resolve_left fun hunused ↦ hclosed hunused.2
  have hstart : Serving work work :=
    ⟨hused, hintact, fun h ↦ absurd h hclosed, Settles.refl work⟩
  obtain ⟨last, hlast, hserve⟩ := serveSlot_cases (P := Serving work)
    (fun side result other h hopen ↦ h.handleRead hopen result)
    (fun side result other h hopen ↦ h.handleWrite hopen result)
    readfds writefds recv send work (eq_false_of_ne_true hclosed) hstart
  rw [hserve]
  split_ifs with hboth
  · rw [Bool.and_eq_true_iff] at hboth
    exact ⟨hlast.settles.trans (Settles.of_eq rfl rfl rfl rfl rfl),
      fun _ ↦ iff_of_true rfl hboth.symm⟩
  · refine ⟨hlast.settles, fun _ ↦ ⟨hlast.closedBoth, fun h ↦ absurd ?_ hboth⟩⟩
    rw [h.1, h.2]
    rfl

/-! ### New connections -/

structure Placed (fd : ℤ) (old new : Work) : Prop where
  balance : ∀ other, closes new.calls other + held new.slot other + below old.nextFd other =
    closes old.calls other + (if fd = other then 1 else 0) + below new.nextFd other
  flags : FlagsRight new.slot
  obtained : ∀ other, Obtained new.calls other →
    Obtained old.calls other ∨ (0 ≤ other ∧ other < new.nextFd)
  nextFd : old.nextFd ≤ new.nextFd

theorem placed_refuse {fd : ℤ} {old work : Work} (hcalls : work.calls = old.calls)
    (hnext : work.nextFd = old.nextFd) (hfd : work.slot.fd .re = fd) :
    Placed fd old (refuse work) where
  balance other := by
    have hheld : held (refuse work).slot other = 0 := held_of_closed (fun _ ↦ rfl) other
    show closes (work.calls ++ [.close (work.slot.fd .re)]) other + _ + _ =
      _ + _ + below work.nextFd other
    rw [hheld, closes_concat_close, hcalls, hfd, hnext]
    omega
  flags _ := iff_of_true rfl ⟨rfl, rfl⟩
  obtained other h := by
    refine Or.inl ?_
    rw [← hcalls]
    simpa [Obtained, refuse, Work.closesocket, Work.markClosed] using h
  nextFd := hnext.ge

/-- Two descriptors are closed after the local socket has been obtained. -/
theorem placed_of_closings {fd : ℤ} {old new : Work} (calls : List Call)
    (hcalls : new.calls = calls ++ [.close old.nextFd] ++ [.close fd])
    (hcloses : ∀ other, closes calls other = closes old.calls other)
    (hobtained : ∀ other, Obtained calls other → Obtained old.calls other ∨ other = old.nextFd)
    (hnext : new.nextFd = old.nextFd + 1) (hclosed : ∀ side, new.slot.closed side = true)
    (hslot : new.slot.coClosed = true) : Placed fd old new where
  balance other := by
    rw [hcalls, held_of_closed hclosed, closes_concat_close, closes_concat_close, hcloses, hnext,
      below_succ]
    omega
  flags _ := iff_of_true hslot ⟨hclosed .re, hclosed .lo⟩
  obtained other h := by
    rw [hcalls, obtained_concat_of_ne (fun _ ↦ Call.noConfusion) (fun _ ↦ Call.noConfusion),
      obtained_concat_of_ne (fun _ ↦ Call.noConfusion) (fun _ ↦ Call.noConfusion)] at h
    refine (hobtained other h).imp_right fun hother ↦ ?_
    omega
  nextFd := by omega

theorem placed_openLocalFd {fd : ℤ} {work : Work} (hfd : work.slot.fd .re = fd)
    (hused : work.slot.used = true) (hopen : ∀ side, work.slot.closed side = false)
    (hslot : work.slot.coClosed = false) (server : Server) (input : AcceptInput) :
    Placed fd work (openLocalFd server input work) := by
  have hsocket (other : ℤ) (h : Obtained (work.calls ++ [.socket work.nextFd]) other) :
      Obtained work.calls other ∨ other = work.nextFd := by
    rw [obtained_concat] at h
    rcases h with h | h | ⟨h, -⟩
    · exact Or.inl h
    · exact Call.noConfusion h
    · exact Or.inr (Call.socket.inj h).symm
  have hconnect (other : ℤ) (h : Obtained (work.calls ++ [.socket work.nextFd] ++
      [.connect work.nextFd server.localAddr server.toPort]) other) :
      Obtained work.calls other ∨ other = work.nextFd := by
    rw [obtained_concat_of_ne (fun _ ↦ Call.noConfusion) (fun _ ↦ Call.noConfusion)] at h
    exact hsocket other h
  have hcloses (other : ℤ) : closes (work.calls ++ [.socket work.nextFd]) other =
      closes work.calls other := closes_concat (fun _ ↦ Call.noConfusion) _ _
  have hcloses' (other : ℤ) : closes (work.calls ++ [.socket work.nextFd] ++
      [.connect work.nextFd server.localAddr server.toPort]) other = closes work.calls other :=
    (closes_concat (fun _ ↦ Call.noConfusion) _ _).trans (hcloses other)
  unfold openLocalFd
  split_ifs
  · -- the socket call has failed, and only the peer is closed
    refine ⟨fun other ↦ ?_, fun _ ↦ iff_of_true rfl ⟨rfl, rfl⟩, fun other h ↦
      Or.inl ?_, Nat.le_refl _⟩
    · rw [held_of_closed (fun _ ↦ rfl)]
      show closes ((work.calls ++ [.socket invalidSocket]) ++ [.close (work.slot.fd .re)])
        other + _ + _ = _ + _ + below work.nextFd other
      rw [closes_concat_close, closes_concat (fun _ ↦ Call.noConfusion), hfd]
      omega
    · change Obtained ((work.calls ++ [.socket invalidSocket]) ++ [.close (work.slot.fd .re)])
        other at h
      rw [obtained_concat_of_ne (fun _ ↦ Call.noConfusion) (fun _ ↦ Call.noConfusion),
        obtained_concat] at h
      rcases h with h | h | ⟨h, hvalid⟩
      · exact h
      · exact Call.noConfusion h
      · exact absurd (Call.socket.inj h).symm hvalid
  · refine placed_of_closings (work.calls ++ [.socket work.nextFd]) ?_ hcloses hsocket rfl
      (fun _ ↦ rfl) rfl
    rw [← hfd]
    rfl
  · refine placed_of_closings (work.calls ++ [.socket work.nextFd] ++
      [.connect work.nextFd server.localAddr server.toPort]) ?_ hcloses' hconnect rfl
      (fun _ ↦ rfl) rfl
    rw [← hfd]
    rfl
  · refine ⟨fun other ↦ ?_, fun _ ↦ ?_, fun other h ↦ ?_, Nat.le_succ _⟩
    · have hheld : held { work.slot with
          fd := Function.update work.slot.fd .lo (work.nextFd : ℤ) } other =
          (if fd = other then 1 else 0) + if (work.nextFd : ℤ) = other then 1 else 0 := by
        simp [held, heldBy, hused, hopen, hfd]
      show closes (work.calls ++ [.socket work.nextFd] ++
        [.connect work.nextFd server.localAddr server.toPort]) other + held { work.slot with
          fd := Function.update work.slot.fd .lo (work.nextFd : ℤ) } other + _ = _ + _ +
            below (work.nextFd + 1) other
      rw [hcloses', hheld, below_succ]
      omega
    · show work.slot.coClosed = true ↔ work.slot.closed .re = true ∧ work.slot.closed .lo = true
      rw [hslot, hopen .re]
      simp
    · refine (hconnect other h).imp_right fun hother ↦ ?_
      show 0 ≤ other ∧ other < ((work.nextFd + 1 : ℕ) : ℤ)
      omega

variable {settings : Settings}

variable {address : UInt8 × UInt8 × UInt8 × UInt8}

variable {input : AcceptInput}

theorem placed_placeConnection {i : ℕ}
    (hclean : CleanAccept settings i input)
    (hpeer : input.peer = some address) (fd : ℤ) (work : Work) :
    Placed fd work (placeConnection settings i input address fd work) := by
  have hcheck := hclean.2 address hpeer
  unfold placeConnection
  extract_lets allow deny allowWindow denyWindow text start checked
  by_cases hglobal : allowed text allow.items 0 allow.leading = true
  · obtain ⟨hglobalDeny, hown⟩ :=
      hcheck.resolve_left (not_not.mpr ((allowed_iff _ _ _ _).mp hglobal))
    have hchecked : checked = start := denyLoop_of_not_denied hglobalDeny start
    rw [if_neg (by simp [hglobal]), hchecked]
    by_cases hpasses : allowed text allow.items allowWindow.offset allowWindow.total = true
    · have hownDeny := hown.resolve_left (not_not.mpr ((allowed_iff _ _ _ _).mp hpasses))
      have hloop : denyLoop text deny.items denyWindow.offset denyWindow.total start = start :=
        denyLoop_of_not_denied hownDeny start
      have hfd : start.slot.fd .re = fd := rfl
      rw [if_neg (by simp [hpasses]), hloop]
      have hplaced := placed_openLocalFd hfd rfl (fun _ ↦ rfl) rfl
        (settings.servers.getD i default) input
      exact ⟨hplaced.balance, hplaced.flags, hplaced.obtained, hplaced.nextFd⟩
    · rw [if_pos (by simp [hpasses])]
      exact placed_refuse rfl rfl rfl
  · rw [if_pos (by simp [hglobal])]
    exact placed_refuse rfl rfl rfl

/-! ### Every run -/

structure Owned (state : State) : Prop where
  slots : state.slots ≠ []
  sound : ∀ slot ∈ state.slots, SlotSound slot
  flags : ∀ slot ∈ state.slots, FlagsRight slot
  balance : ∀ fd, closes state.calls fd + (state.slots.map (held · fd)).sum = below state.nextFd fd
  obtained : ∀ fd, Obtained state.calls fd → 0 ≤ fd ∧ fd < state.nextFd

theorem held_unused (h : slot.used = false) (fd : ℤ) : held slot fd = 0 := by
  simp [held, h]

theorem sum_held_unused {slots : List Slot} (h : ∀ slot ∈ slots, slot.used = false) (fd : ℤ) :
    (slots.map (held · fd)).sum = 0 := by
  rw [List.sum_eq_zero_iff_forall_eq_nat]
  intro count hcount
  obtain ⟨slot, hslot, rfl⟩ := List.mem_map.mp hcount
  exact held_unused (h slot hslot) fd

variable {state : State}

theorem owned_of_initial (h : Initial state) : Owned state where
  slots := by
    intro hnil
    have hlength := h.slots_length
    rw [hnil] at hlength
    exact absurd hlength (by decide)
  sound slot hslot := Or.inl ⟨(h.unused slot hslot).2.1, (h.unused slot hslot).1⟩
  flags slot hslot hused := by
    rw [(h.unused slot hslot).2.1] at hused
    exact Bool.noConfusion hused
  balance fd := by
    have hbelow : below 0 fd = 0 := by
      exact if_neg (by omega)
    rw [sum_held_unused (fun slot hslot ↦ (h.unused slot hslot).2.1), h.calls, h.nextFd, hbelow]
    rfl
  obtained fd hfd := by
    rw [h.calls] at hfd
    simp [Obtained] at hfd

/-- Work on a slot with what it keeps of the slot and of the balance. -/
theorem Owned.set_slot (h : Owned state) {index : ℕ}
    (hslot : state.slots[index]? = some slot) {work : Work} (hsound : SlotSound work.slot)
    (hflags : FlagsRight work.slot)
    (hbalance : ∀ fd, closes work.calls fd + held work.slot fd + below state.nextFd fd =
      closes state.calls fd + held slot fd + below work.nextFd fd)
    (hobtained : ∀ fd, Obtained work.calls fd → 0 ≤ fd ∧ fd < work.nextFd) :
    Owned ⟨state.slots.set index work.slot, work.nextFd, work.calls⟩ where
  slots := by
    simp [h.slots]
  sound other hother := by
    rcases List.mem_or_eq_of_mem_set hother with hother | rfl
    · exact h.sound other hother
    · exact hsound
  flags other hother := by
    rcases List.mem_or_eq_of_mem_set hother with hother | rfl
    · exact h.flags other hother
    · exact hflags
  balance fd := by
    have hsum := sum_map_set (held · fd) hslot work.slot
    have hold := h.balance fd
    have hwork := hbalance fd
    dsimp only at hsum ⊢
    omega
  obtained := hobtained

theorem Owned.serve (h : Owned state) (readfds writefds : ℤ → Bool)
    (recv : Side → RecvResult) (send : Side → SendResult) (index : ℕ) :
    Owned (state.onSlot index (serveSlot readfds writefds recv send)) := by
  rcases hindex : state.slots[index]? with _ | slot
  · unfold State.onSlot
    rw [hindex]
    exact h
  · rw [State.onSlot_of_getElem? hindex]
    have hmem := List.mem_of_getElem? hindex
    have hsound := slotSound_serveSlot readfds writefds recv send
      ⟨slot, state.nextFd, state.calls⟩ (h.sound slot hmem)
    obtain ⟨hsettles, hflags⟩ := settles_serveSlot readfds writefds recv send
      ⟨slot, state.nextFd, state.calls⟩ (h.sound slot hmem) (h.flags slot hmem)
    refine h.set_slot hindex hsound hflags (fun fd ↦ ?_) fun fd hfd ↦ ?_
    · have hbalance := hsettles.balance fd
      rw [hsettles.nextFd]
      dsimp only at hbalance ⊢
      omega
    · rw [hsettles.nextFd]
      exact h.obtained fd (hsettles.obtained fd hfd)

theorem Owned.enlarge (h : Owned state) (input : AcceptInput) :
    Owned { state with slots := enlarge input state.slots } where
  slots := by
    simp [Rinetd.enlarge, h.slots]
  sound slot hslot := by
    rcases List.mem_append.mp hslot with hslot | hslot
    · exact h.sound slot hslot
    · obtain ⟨k, -, rfl⟩ := List.mem_map.mp hslot
      exact Or.inl ⟨rfl, rfl⟩
  flags slot hslot := by
    rcases List.mem_append.mp hslot with hslot | hslot
    · exact h.flags slot hslot
    · obtain ⟨k, -, rfl⟩ := List.mem_map.mp hslot
      exact fun hused ↦ Bool.noConfusion hused
  balance fd := by
    have hnew : (((List.range state.slots.length).map fun k ↦
        { input.newSlots k with coClosed := true, used := false, events := [] }).map
          (held · fd)).sum = 0 := by
      refine sum_held_unused (fun slot hslot ↦ ?_) fd
      obtain ⟨k, -, rfl⟩ := List.mem_map.mp hslot
      rfl
    show closes state.calls fd + ((Rinetd.enlarge input state.slots).map (held · fd)).sum = _
    rw [Rinetd.enlarge, List.map_append, List.sum_append, hnew]
    exact h.balance fd
  obtained := h.obtained

theorem Owned.placeConnection (h : Owned state) {i : ℕ}
    (hclean : CleanAccept settings i input)
    (hpeer : input.peer = some address) {index : ℕ}
    (hslot : state.slots[index]? = some slot) (hclosed : slot.coClosed = true) :
    Owned (State.onSlot ⟨state.slots, state.nextFd + 1, state.calls ++ [.accept state.nextFd]⟩ index
      (placeConnection settings i input address state.nextFd)) := by
  have hmem := List.mem_of_getElem? hslot
  have hplaced := placed_placeConnection hclean hpeer state.nextFd
    ⟨slot, state.nextFd + 1, state.calls ++ [.accept state.nextFd]⟩
  have huntouched := untouched_placeConnection settings i input address state.nextFd
    ⟨slot, state.nextFd + 1, state.calls ++ [.accept state.nextFd]⟩
  have hheld (fd : ℤ) : held slot fd = 0 := by
    by_cases hused : slot.used = true
    · obtain ⟨hre, hlo⟩ := (h.flags slot hmem hused).mp hclosed
      refine held_of_closed (fun side ↦ ?_) fd
      rcases side with _ | _
      · exact hre
      · exact hlo
    · exact held_unused (eq_false_of_ne_true hused) fd
  rw [State.onSlot, hslot]
  refine h.set_slot hslot (Or.inr ⟨huntouched.used, huntouched.intact⟩) hplaced.flags
    (fun fd ↦ ?_) fun fd hfd ↦ ?_
  · have hbalance := hplaced.balance fd
    dsimp only at hbalance ⊢
    rw [below_succ, closes_concat (fun _ ↦ Call.noConfusion)] at hbalance
    rw [hheld]
    omega
  · have hnext := hplaced.nextFd
    dsimp only at hnext ⊢
    rcases hplaced.obtained fd hfd with hold | hnew
    · rw [obtained_concat] at hold
      rcases hold with hold | hold | ⟨hold, -⟩
      · have hbound := h.obtained fd hold
        omega
      · have hfd := Call.accept.inj hold
        omega
      · exact Call.noConfusion hold
    · exact hnew

theorem Owned.handleAccept (h : Owned state) {i : ℕ}
    (hclean : CleanAccept settings i input) :
    Owned (handleAccept settings i input state) := by
  rcases hpeer : input.peer with _ | address
  · unfold Rinetd.handleAccept
    rw [hpeer]
    exact h
  · rcases handleAccept_cases settings i h.slots hpeer with
      ⟨-, slots, index, slot, hslots, hslot, hclosed, haccept⟩ | ⟨hshortage, -⟩
    · rw [haccept]
      rcases hslots with rfl | rfl
      · exact h.placeConnection hclean hpeer hslot hclosed
      · exact (h.enlarge input).placeConnection hclean hpeer hslot hclosed
    · exact absurd (Or.inr hclean.1) hshortage

theorem owned_of_reachable
    (hreach : Reachable (selectLoop settings) (CleanPass settings) state) : Owned state := by
  refine hreach.invariant Owned (fun _ ↦ owned_of_initial) ?_
  rintro state input next - h hclean rfl
  unfold selectPass
  extract_lets readfds writefds accepted
  have haccepted : Owned accepted := by
    refine List.foldlRecOn (List.range settings.servers.length) _ h ?_
    intro state h i hi
    split_ifs with haccept
    · exact h.handleAccept (hclean i (List.mem_range.mp hi) haccept)
    · exact h
  refine List.foldlRecOn (List.range accepted.slots.length) _ haccepted ?_
  intro state h k _
  exact h.serve _ _ _ _ k

theorem Owned.heldOpen_iff (h : Owned state) (fd : ℤ) :
    HeldOpen state fd ↔ 0 < (state.slots.map (held · fd)).sum := by
  rw [List.sum_pos_iff_exists_pos_nat]
  constructor
  · rintro ⟨slot, hslot, hused, -, side, hfd, hopen⟩
    refine ⟨held slot fd, List.mem_map_of_mem hslot, ?_⟩
    have hside : heldBy slot side fd = 1 := if_pos ⟨hopen, hfd⟩
    rw [held, if_pos hused]
    rcases side with _ | _
    · omega
    · omega
  · rintro ⟨count, hcount, hpos⟩
    obtain ⟨slot, hslot, rfl⟩ := List.mem_map.mp hcount
    have hused : slot.used = true := by
      by_contra hunused
      rw [held_unused (eq_false_of_ne_true hunused)] at hpos
      exact absurd hpos (Nat.lt_irrefl 0)
    obtain ⟨side, hopen, hfd⟩ : ∃ side, slot.closed side = false ∧ slot.fd side = fd := by
      by_contra hnone
      have hre : ¬ (slot.closed .re = false ∧ slot.fd .re = fd) := fun hboth ↦ hnone ⟨.re, hboth⟩
      have hlo : ¬ (slot.closed .lo = false ∧ slot.fd .lo = fd) := fun hboth ↦ hnone ⟨.lo, hboth⟩
      rw [held, if_pos hused, heldBy, heldBy, if_neg hre, if_neg hlo] at hpos
      exact absurd hpos (Nat.lt_irrefl 0)
    refine ⟨slot, hslot, hused, ?_, side, hfd, hopen⟩
    by_contra hclosed
    obtain ⟨hre, hlo⟩ := (h.flags slot hslot hused).mp (eq_true_of_ne_false hclosed)
    rcases side with _ | _
    · rw [hre] at hopen
      exact Bool.noConfusion hopen
    · rw [hlo] at hopen
      exact Bool.noConfusion hopen

/-- In every run without a connection that a deny rule reaches, every descriptor is closed exactly
once, before its slot is used again. -/
theorem descriptorsOwned_of_reachable (settings : Settings) {state : State}
    (hreach : Reachable (selectLoop settings) (CleanPass settings) state) :
    DescriptorsOwned state := by
  have howned := owned_of_reachable hreach
  refine ⟨howned.flags, fun fd hfd ↦ ?_⟩
  have hbelow : below state.nextFd fd = 1 := if_pos (howned.obtained fd hfd)
  have hbalance := howned.balance fd
  rw [hbelow] at hbalance
  have hcount : closes state.calls fd = state.calls.count (.close fd) := rfl
  rw [howned.heldOpen_iff fd, ← hcount]
  omega

theorem cleanPass_readyPass (state : State) (acceptable : Bool) (recv : Side → RecvResult)
    (send : SendResult) : CleanPass openRule state (readyPass acceptable recv send) := by
  intro i hi _
  have hone : i = 0 := by
    have hlength : openRule.servers.length = 1 := rfl
    omega
  subst hone
  refine ⟨rfl, fun address _ ↦ Or.inr ⟨?_, Or.inr ?_⟩⟩
  · rintro ⟨rule, hrule, -⟩
    exact absurd hrule List.not_mem_nil
  · rintro ⟨rule, hrule, -⟩
    exact absurd hrule List.not_mem_nil

/-- The descriptors of the connection that ends with `relayedState`. -/
theorem descriptorsOwned_relayedState :
    relayedState.calls =
        [.accept 0, .socket 1, .connect 1 16777343 2, .close 0, .close 1] ∧
      DescriptorsOwned relayedState := by
  refine ⟨by decide +kernel, descriptorsOwned_of_reachable openRule ?_⟩
  refine reachable_foldl_selectPass (.start initial_firstState) _ fun input hinput state ↦ ?_
  simp only [List.mem_cons, List.not_mem_nil, or_false] at hinput
  rcases hinput with rfl | rfl | rfl | rfl | rfl
  all_goals exact cleanPass_readyPass state _ _ _

/-- A pass with a connection from an address to which the local server cannot be connected. -/
def failingPass (address : UInt8 × UInt8 × UInt8 × UInt8) : PassInput where
  acceptable _ := true
  accepts _ := { connectionFrom address with connect := false }
  readable _ := false
  writable _ := false
  recv _ _ := .again
  send _ _ := .again

/-- The descriptor of a denied peer is closed by `refuse`, and again when the local server, which
should not have been connected, does not answer. -/
theorem denied_peer_is_closed_twice :
    ∃ state, Reachable (selectLoop (readConfiguration allSucceed denyNine)) (fun _ _ ↦ True) state ∧
      state.calls = [.accept 0, .close 0, .socket 1, .connect 1 16777343 2, .close 1, .close 0] ∧
      ¬ DescriptorsOwned state := by
  have hcalls : (selectPass (readConfiguration allSucceed denyNine) (failingPass (9, 1, 1, 1))
      firstState).calls =
      [.accept 0, .close 0, .socket 1, .connect 1 16777343 2, .close 1, .close 0] := by
    decide +kernel
  refine ⟨_, (Reachable.start initial_firstState).step trivial rfl, hcalls, fun h ↦ ?_⟩
  have howned := h.owned 0 (Or.inl (by rw [hcalls]; decide))
  rw [hcalls] at howned
  rcases howned with ⟨hcount, -⟩ | ⟨hcount, -⟩
  · exact absurd hcount (by decide)
  · exact absurd hcount (by decide)

end CrossBreeder.Rinetd
