import CrossBreeder.Dnsmasq.TftpErrors
import CrossBreeder.Foundation.HandlePool

/-!
# The files of the TFTP server

Transfers of the same file share its descriptor. `check_tftp_fileperm` looks for the file among the
active transfers, by device, inode and name, and `free_transfer` drops the reference of a transfer
and closes the file with the last one. The calls of the server, and the parts of `tftp_request`
while a transfer is set up, are the steps of a system in which each refcount is the number of
transfers with that file, a descriptor is open exactly while there are some, and no descriptor or
socket is lost or closed twice (`filesBalanced_of_reachable`).
-/

namespace CrossBreeder.Dnsmasq

open Foundation Function

/-! ### Transfers and their files -/

/-- What identifies a `struct tftp_file`. -/
structure FileTag where
  dev : ℕ
  inode : ℕ
  filename : List UInt8
  deriving DecidableEq

structure OpenTransfer where
  transfer : Transfer
  sockfd : ℕ
  file : Option ℕ

/-- How far `tftp_request` is with a transfer: it has a socket, the socket is bound, the file is
open.
-/
inductive SetUp
  | created (n : ℕ)
  | bound (n : ℕ)
  | opened (n : ℕ)

def SetUp.transfer : SetUp → ℕ
  | .created n => n
  | .bound n => n
  | .opened n => n

/-- The transfers of all requests so far, the one that is set up, the lists of the others, and the
files. -/
structure FileState where
  record : ℕ → OpenTransfer
  requests : ℕ
  setUp : Option SetUp
  trans : List ℕ
  doneTrans : List ℕ
  files : HandlePool FileTag
  sockets : ℕ
  closedSockets : List ℕ

namespace FileState

def freeTransfer (s : FileState) (n : ℕ) : FileState :=
  { s with
    record := update s.record n { s.record n with file := none }
    files := match (s.record n).file with
      | none => s.files
      | some i => s.files.release i
    closedSockets := (s.record n).sockfd :: s.closedSockets }

/-- The file of an active transfer that has the same identity. -/
def sharedFile (s : FileState) (tag : FileTag) : Option ℕ :=
  s.trans.findSome? fun n ↦
    match (s.record n).file with
    | none => none
    | some i => if (s.files.slots i).tag = tag then some i else none

/-- A transfer gets a file. -/
def attach (s : FileState) (n i : ℕ) (files : HandlePool FileTag) : FileState :=
  { s with record := update s.record n { s.record n with
    file := some i }, files := files, setUp := some (.opened n) }

/-! ### The calls -/

/-- `tftp_request` up to the socket. What the options make of the transfer is put into it at once.
-/
def tftpSocket (s : FileState) (transfer : Transfer) : FileState :=
  { s with
    record := update s.record s.requests ⟨{ transfer with number := s.requests }, s.sockets, none⟩
    requests := s.requests + 1
    setUp := some (.created s.requests)
    sockets := s.sockets + 1 }

/-- The loop that binds the socket, given whether it finds a port. -/
def tftpBind (s : FileState) (n : ℕ) (found : Bool) : FileState :=
  if found then { s with setUp := some (.bound n) } else { s.freeTransfer n with setUp := none }

/-- The file of a request, which goes to an unused place if no transfer has it. An error is sent,
and the transfer is freed. -/
def tftpOpen (s : FileState) (n : ℕ) (site : TftpSite) (host : TftpHost) (packet : List UInt8)
    (place : ℕ) :
    FileState :=
  match requestFields packet with
  | none => { s.freeTransfer n with setUp := none }
  | some (filename, _) =>
    let namebuff := site.requestName filename
    let shared (stat : FileStat) := s.sharedFile ⟨stat.dev, stat.inode, namebuff⟩
    match checkTftpFileperm host site.requestPrefix.isSome namebuff fun stat ↦
      (shared stat).isSome with
    | .error _ =>
      -- the descriptor is closed if there is one
      let opened := (site.openedName filename).isSome ∧ (host.openFile namebuff).isOk
      let s := if opened then { s with files := s.files.pass } else s
      { s.freeTransfer n with setUp := none }
    | .ok stat =>
      match shared stat with
      | some i => s.attach n i (s.files.pass.share i)
      | none => s.attach n place (s.files.openSlot place ⟨stat.dev, stat.inode, namebuff⟩)

/-- The rest of `tftp_request`: the first block, or an error. -/
def tftpFirst (s : FileState) (n : ℕ) (readable : Bool) : FileState :=
  match getBlock (s.record n).transfer readable with
  | (_, none) => { s.freeTransfer n with setUp := none }
  | (transfer, some _) =>
    { s with record := update s.record n { s.record n with
      transfer := transfer }, setUp := none, trans := n :: s.trans }

/-- The body of the loop of `check_tftp_listeners`. -/
def checkTransfer (input : TftpInput) (s : FileState) (n : ℕ) : FileState :=
  let (transfer, fate, _) := (s.record n).transfer.check input
  let s := { s with record := update s.record n { s.record n with transfer := transfer } }
  match fate with
  | .kept => s
  | .failed => { s.freeTransfer n with trans := s.trans.erase n }
  | .done => { s with trans := s.trans.erase n, doneTrans := n :: s.doneTrans }

/-- `do_tftp_script_run`. -/
def scriptRun (s : FileState) : FileState :=
  match s.doneTrans with
  | [] => s
  | n :: rest => { s.freeTransfer n with doneTrans := rest }

/-- The calls, with the steps of `tftp_request`. -/
inductive Call
  | socket (transfer : Transfer)
  | bind (found : Bool)
  | openFile (site : TftpSite) (host : TftpHost) (packet : List UInt8) (place : ℕ)
  | first (readable : Bool)
  | check (input : TftpInput)
  | scriptRun

/-- One step. Other calls do not interrupt `tftp_request`, and `malloc` finds a place that is not in
use. -/
def step (s : FileState) : Call → Option FileState
  | .socket transfer => if s.setUp.isNone then some (s.tftpSocket transfer) else none
  | .bind found =>
    match s.setUp with
    | some (.created n) => some (s.tftpBind n found)
    | _ => none
  | .openFile site host packet place =>
    match s.setUp with
    | some (.bound n) => if (s.files.slots place).count =
      0 then some (s.tftpOpen n site host packet place) else none
    | _ => none
  | .first readable =>
    match s.setUp with
    | some (.opened n) => some (s.tftpFirst n readable)
    | _ => none
  | .check input => if s.setUp.isNone then some (s.trans.foldl (checkTransfer input) s) else none
  | .scriptRun => if s.setUp.isNone then some s.scriptRun else none

/-- A server without transfers. -/
def Initial (s : FileState) : Prop :=
  s.setUp = none ∧ s.trans = [] ∧ s.doneTrans = [] ∧
    (∀ i, (s.files.slots i).count = 0 ∧ (s.files.slots i).handle = none) ∧ s.files.opened = 0 ∧
      s.files.closed = [] ∧
    s.sockets = 0 ∧ s.closedSockets = []

/-- The transfers that are set up, active, or finished and not yet reported. -/
def live (s : FileState) : List ℕ := (s.setUp.map SetUp.transfer).toList ++ (s.trans ++ s.doneTrans)

end FileState

/-! ### The invariant -/

/-- What a list of transfers holds: each has a socket of its own, and the files they refer to are
counted and open. -/
structure Holding (s : FileState) (live : List ℕ) : Prop where
  nodup : live.Nodup
  known : ∀ n ∈ live, n < s.requests
  accounts : Accounts s.files live.toFinset fun n ↦ (s.record n).file
  sockets : (live.map (fun n ↦ (s.record n).sockfd) ++ s.closedSockets).Perm (List.range s.sockets)

namespace Holding

variable {s : FileState} {live rest : List ℕ} {n : ℕ}

theorem perm (h : Holding s live) {other : List ℕ} (hperm : live.Perm other) : Holding s other where
  nodup := hperm.nodup_iff.mp h.nodup
  known m hm := h.known m (hperm.mem_iff.mpr hm)
  accounts := by
    rw [← List.toFinset_eq_of_perm _ _ hperm]
    exact h.accounts
  sockets := ((hperm.symm.map _).append_right _).trans h.sockets

theorem sockets_update (record : OpenTransfer) (hsockfd : record.sockfd = (s.record n).sockfd)
    (m : ℕ) : (update s.record n record m).sockfd = (s.record m).sockfd := by
  by_cases hm : m = n
  · rw [hm, update_self, hsockfd]
  · rw [update_of_ne hm]

theorem file_update {record : OpenTransfer} (m : ℕ) :
    (update s.record n record m).file = update (fun k ↦ (s.record k).file) n record.file m := by
  by_cases hm : m = n
  · rw [hm, update_self, update_self]
  · rw [update_of_ne hm, update_of_ne hm]

theorem freeTransfer (h : Holding s (n :: rest)) : Holding (s.freeTransfer n) rest := by
  obtain ⟨hn, hnodup⟩ := List.nodup_cons.mp h.nodup
  have hgone : ∀ {pool : HandlePool FileTag} {holds : ℕ → Option ℕ},
    Accounts pool (n :: rest).toFinset holds →
      holds n = none → Accounts pool rest.toFinset holds := fun haccounts hnone ↦
    haccounts.of_references fun j ↦ by rw [List.toFinset_cons, references_insert_none hnone]
  have hmem : n ∈ (n :: rest).toFinset := List.mem_toFinset.mpr List.mem_cons_self
  refine ⟨hnodup, fun m hm ↦ h.known m (List.mem_cons_of_mem _ hm), ?_, ?_⟩
  · unfold FileState.freeTransfer
    simp only [file_update]
    cases hfile : (s.record n).file with
    | none =>
      rw [update_eq_self_iff.mpr hfile.symm]
      exact hgone h.accounts hfile
    | some i => exact hgone (h.accounts.release hmem hfile) (update_self _ _ _)
  · have hsame : rest.map (fun m ↦ ((s.freeTransfer n).record m).sockfd) = rest.map fun m ↦
      (s.record m).sockfd :=
      List.map_congr_left fun m _ ↦ sockets_update { s.record n with file := none } rfl m
    rw [hsame]
    exact (List.perm_middle).trans h.sockets

theorem tftpSocket (h : Holding s live) (transfer : Transfer) :
    Holding (s.tftpSocket transfer) (s.requests :: live) := by
  have hnew : s.requests ∉ live := fun hmem ↦ Nat.lt_irrefl _ (h.known _ hmem)
  have hother : ∀ m ∈ live, (s.tftpSocket transfer).record m = s.record m := fun m hm ↦
    update_of_ne (ne_of_mem_of_not_mem hm hnew) _ _
  refine ⟨List.nodup_cons.mpr ⟨hnew, h.nodup⟩, fun m hm ↦ ?_, ?_, ?_⟩
  · rcases List.mem_cons.mp hm with rfl | hm
    · exact Nat.lt_succ_self _
    · exact Nat.lt_succ_of_lt (h.known m hm)
  · refine h.accounts.of_references fun j ↦ ?_
    rw [List.toFinset_cons, references_insert_none (by simp [FileState.tftpSocket])]
    unfold references
    congr 1
    refine Finset.filter_congr fun m hm ↦ ?_
    dsimp only
    rw [hother m (List.mem_toFinset.mp hm)]
  · have hsame : live.map (fun m ↦ ((s.tftpSocket transfer).record m).sockfd) = live.map fun m ↦
      (s.record m).sockfd :=
      List.map_congr_left fun m hm ↦ by rw [hother m hm]
    have hown : ((s.tftpSocket transfer).record s.requests).sockfd = s.sockets := by
      simp [FileState.tftpSocket]
    rw [List.map_cons, hsame, hown]
    have hrange : List.range (s.tftpSocket transfer).sockets =
      List.range s.sockets ++ [s.sockets] := List.range_succ
    rw [hrange]
    exact (h.sockets.cons _).trans (List.perm_append_singleton _ _).symm

theorem update_transfer (h : Holding s live) (transfer : Transfer) :
    Holding { s with record := update s.record n { s.record n with transfer := transfer } } live
    where
  nodup := h.nodup
  known := h.known
  accounts := by
    simp only [file_update]
    rw [update_eq_self]
    exact h.accounts
  sockets := by
    have hsame : ∀ m, (update s.record n { s.record n with transfer := transfer } m).sockfd =
      (s.record m).sockfd :=
      sockets_update _ rfl
    simp only [hsame]
    exact h.sockets

theorem pass (h : Holding s live) : Holding { s with files := s.files.pass } live :=
  ⟨h.nodup, h.known, h.accounts.pass, h.sockets⟩

theorem attach (h : Holding s live) {i : ℕ} {files : HandlePool FileTag}
    (haccounts : Accounts files live.toFinset (update (fun m ↦ (s.record m).file) n (some i))) :
    Holding (s.attach n i files) live where
  nodup := h.nodup
  known := h.known
  accounts := by
    unfold FileState.attach
    simp only [file_update]
    exact haccounts
  sockets := by
    have hsame : ∀ m, ((s.attach n i files).record m).sockfd = (s.record m).sockfd :=
      sockets_update { s.record n with file := some i } rfl
    simp only [hsame]
    exact h.sockets

end Holding

/-- What holds between the steps. Transfers in the lists have a file, and one that is set up has a
file when it is open. -/
structure FileInv (s : FileState) : Prop where
  holding : Holding s s.live
  attached : ∀ n ∈ s.trans ++ s.doneTrans, (s.record n).file ≠ none
  waiting : ∀ phase ∈ s.setUp, (∀ n, phase ≠ .opened n) → (s.record phase.transfer).file = none
  ready : ∀ n, s.setUp = some (.opened n) → (s.record n).file ≠ none

namespace FileInv

variable {s : FileState} {n : ℕ}

theorem notMem_of_setUp (h : FileInv s) {phase : SetUp} (hphase : s.setUp = some phase) :
    phase.transfer ∉ s.trans ++ s.doneTrans := by
  have hnodup := h.holding.nodup
  unfold FileState.live at hnodup
  rw [hphase] at hnodup
  exact (List.nodup_cons.mp hnodup).1

theorem abandon (h : FileInv s) {phase : SetUp} (hphase : s.setUp = some phase) :
    FileInv { s.freeTransfer phase.transfer with setUp := none } := by
  have hheld := h.holding
  unfold FileState.live at hheld
  rw [hphase] at hheld
  have hfreed : Holding (s.freeTransfer phase.transfer) (s.trans ++ s.doneTrans) :=
    Holding.freeTransfer hheld
  refine ⟨⟨hfreed.nodup, hfreed.known, hfreed.accounts, hfreed.sockets⟩, fun m hm ↦ ?_, ?_, ?_⟩
  · have hne : m ≠ phase.transfer := fun heq ↦ h.notMem_of_setUp hphase (heq ▸ hm)
    dsimp only [FileState.freeTransfer]
    rw [update_of_ne hne]
    exact h.attached m hm
  · simp
  · simp

theorem pass (h : FileInv s) : FileInv { s with files := s.files.pass } :=
  ⟨h.holding.pass, h.attached, h.waiting, h.ready⟩

theorem attach (h : FileInv s) (hphase : s.setUp = some (.bound n)) {i : ℕ}
    {files : HandlePool FileTag}
    (haccounts : Accounts files s.live.toFinset (update (fun m ↦ (s.record m).file) n (some i))) :
    FileInv (s.attach n i files) := by
  have hlive : (s.attach n i files).live = s.live := by
    unfold FileState.live FileState.attach
    rw [hphase]
    rfl
  refine ⟨by rw [hlive]; exact h.holding.attach haccounts, fun m hm ↦ ?_, fun phase hmem hopened ↦
      ?_, fun m hm ↦ ?_⟩
  · have hne : m ≠ n := fun heq ↦ h.notMem_of_setUp hphase (heq ▸ hm)
    dsimp only [FileState.attach]
    rw [update_of_ne hne]
    exact h.attached m hm
  · exact absurd (Option.some.inj hmem).symm (hopened n)
  · obtain rfl : n = m := by
      injection hm with hm
      injection hm
    simp [FileState.attach]

theorem shared_count (h : FileInv s) {tag : FileTag} {i : ℕ} (hshared : s.sharedFile tag = some i) :
    0 < (s.files.slots i).count := by
  obtain ⟨m, hm, hfound⟩ := List.exists_of_findSome?_eq_some hshared
  have hfile : (s.record m).file = some i := by
    cases hfile : (s.record m).file with
    | none => simp [hfile] at hfound
    | some j =>
      rw [hfile] at hfound
      exact congrArg some (Option.some.inj (Option.ite_none_right_eq_some.mp hfound).2)
  have hmem : m ∈ s.live.toFinset :=
    List.mem_toFinset.mpr (List.mem_append_right _ (List.mem_append_left _ hm))
  rw [h.holding.accounts.count]
  exact references_pos hmem hfile

theorem tftpOpen (h : FileInv s) (hphase : s.setUp = some (.bound n)) (site : TftpSite)
    (host : TftpHost) (packet : List UInt8) {place : ℕ} (hplace : (s.files.slots place).count = 0) :
    FileInv (s.tftpOpen n site host packet place) := by
  have hnone : (s.record n).file = none := h.waiting _ hphase (by simp)
  have hmem : n ∈ s.live.toFinset := by
    rw [List.mem_toFinset, FileState.live, hphase]
    exact List.mem_cons_self
  unfold FileState.tftpOpen
  cases requestFields packet with
  | none => exact h.abandon hphase
  | some fields =>
    dsimp only
    split
    · split_ifs
      · exact h.pass.abandon hphase
      · exact h.abandon hphase
    · split
      · rename_i hshared
        exact h.attach hphase (h.holding.accounts.pass.share hmem hnone (h.shared_count hshared))
      · exact h.attach hphase (h.holding.accounts.openSlot hmem hnone hplace _)

theorem tftpSocket (h : FileInv s) (hsetUp : s.setUp = none) (transfer : Transfer) :
    FileInv (s.tftpSocket transfer) := by
  have hheld := h.holding.tftpSocket transfer
  have hknown := h.holding.known
  unfold FileState.live at hheld hknown
  rw [hsetUp] at hheld hknown
  refine ⟨hheld, fun m hm ↦ ?_, fun phase hmem _ ↦ ?_, fun m hm ↦ ?_⟩
  · have hne : m ≠ s.requests := (hknown m hm).ne
    dsimp only [FileState.tftpSocket]
    rw [update_of_ne hne]
    exact h.attached m hm
  · obtain rfl := Option.some.inj hmem
    simp [FileState.tftpSocket, SetUp.transfer]
  · injection hm with hm
    injection hm

theorem tftpBind (h : FileInv s) (hphase : s.setUp = some (.created n)) (found : Bool) :
    FileInv (s.tftpBind n found) := by
  unfold FileState.tftpBind
  split_ifs
  · have hlive : FileState.live { s with setUp := some (.bound n) } = s.live := by
      unfold FileState.live
      rw [hphase]
      rfl
    have hheld := h.holding
    refine ⟨by rw [hlive]; exact ⟨hheld.nodup, hheld.known, hheld.accounts,
      hheld.sockets⟩, h.attached, fun phase hmem _ ↦ ?_, fun m hm ↦ ?_⟩
    · obtain rfl := Option.some.inj hmem
      exact h.waiting (.created n) hphase (by simp)
    · injection hm with hm
      injection hm
  · exact h.abandon hphase

theorem update_transfer (h : FileInv s) (transfer : Transfer) :
    FileInv { s with record := update s.record n { s.record n with transfer := transfer } } := by
  have hfile : ∀ m, (update s.record n { s.record n with transfer := transfer } m).file =
    (s.record m).file := fun m ↦ by
    rw [Holding.file_update, update_eq_self]
  refine ⟨h.holding.update_transfer transfer, fun m hm ↦ ?_, fun phase hmem hopened ↦
    ?_, fun m hm ↦ ?_⟩
  · rw [hfile]
    exact h.attached m hm
  · rw [hfile]
    exact h.waiting phase hmem hopened
  · rw [hfile]
    exact h.ready m hm

theorem tftpFirst (h : FileInv s) (hphase : s.setUp = some (.opened n)) (readable : Bool) :
    FileInv (s.tftpFirst n readable) := by
  unfold FileState.tftpFirst
  split
  · exact h.abandon hphase
  · rename_i transfer _ _
    have hupdated := h.update_transfer (n := n) transfer
    have hheld := hupdated.holding
    rw [hphase] at hheld
    refine ⟨⟨hheld.nodup, hheld.known, hheld.accounts, hheld.sockets⟩, fun m hm ↦ ?_,
      by simp, by simp⟩
    rcases List.mem_cons.mp hm with rfl | hm
    · exact hupdated.ready _ hphase
    · exact hupdated.attached m hm

theorem leave (h : FileInv s) (hsetUp : s.setUp = none) {trans doneTrans : List ℕ}
    (hperm : (s.trans ++ s.doneTrans).Perm (n :: (trans ++ doneTrans))) :
    FileInv { s.freeTransfer n with trans := trans, doneTrans := doneTrans } := by
  have hheld := h.holding
  unfold FileState.live at hheld
  rw [hsetUp] at hheld
  have hfreed : Holding (s.freeTransfer n) (trans ++ doneTrans) := (hheld.perm hperm).freeTransfer
  refine ⟨?_, fun m hm ↦ ?_, ?_, ?_⟩
  · unfold FileState.live FileState.freeTransfer
    rw [hsetUp]
    exact ⟨hfreed.nodup, hfreed.known, hfreed.accounts, hfreed.sockets⟩
  · have hne : m ≠ n := by
      rintro rfl
      exact (List.nodup_cons.mp (hperm.nodup_iff.mp hheld.nodup)).1 hm
    dsimp only [FileState.freeTransfer]
    rw [update_of_ne hne]
    exact h.attached m (hperm.mem_iff.mpr (List.mem_cons_of_mem _ hm))
  · simp [FileState.freeTransfer, hsetUp]
  · simp [FileState.freeTransfer, hsetUp]

theorem move (h : FileInv s) (hsetUp : s.setUp = none) {trans doneTrans : List ℕ}
    (hperm : (s.trans ++ s.doneTrans).Perm (trans ++ doneTrans)) :
    FileInv { s with trans := trans, doneTrans := doneTrans } := by
  have hheld := h.holding
  unfold FileState.live at hheld
  rw [hsetUp] at hheld
  have hmoved := hheld.perm hperm
  refine ⟨?_, fun m hm ↦ h.attached m (hperm.mem_iff.mpr hm), h.waiting, h.ready⟩
  rw [hsetUp]
  exact ⟨hmoved.nodup, hmoved.known, hmoved.accounts, hmoved.sockets⟩

theorem scriptRun (h : FileInv s) (hsetUp : s.setUp = none) : FileInv s.scriptRun := by
  unfold FileState.scriptRun
  split
  · exact h
  · rename_i m rest hdone
    refine h.leave hsetUp ?_
    rw [hdone]
    exact List.perm_middle

theorem checkTransfer (h : FileInv s) (hsetUp : s.setUp = none) (hmem : n ∈ s.trans)
    (input : TftpInput) :
    FileInv (s.checkTransfer input n) ∧ (s.checkTransfer input n).setUp = none ∧
      ∀ m ∈ s.trans, m ≠ n → m ∈ (s.checkTransfer input n).trans := by
  unfold FileState.checkTransfer
  generalize (s.record n).transfer.check input = result
  obtain ⟨transfer, fate, events⟩ := result
  have hupdated := h.update_transfer (n := n) transfer
  have herase := List.perm_cons_erase hmem
  cases fate with
  | kept => exact ⟨hupdated, hsetUp, fun m hm _ ↦ hm⟩
  | failed =>
    exact ⟨hupdated.leave hsetUp (herase.append_right _), hsetUp, fun m hm hne ↦
      (List.mem_erase_of_ne hne).mpr hm⟩
  | done =>
    refine ⟨hupdated.move hsetUp ?_, hsetUp, fun m hm hne ↦ (List.mem_erase_of_ne hne).mpr hm⟩
    exact (herase.append_right _).trans List.perm_middle.symm

theorem foldl_checkTransfer (input : TftpInput) (rest : List ℕ) :
    ∀ {s : FileState}, FileInv s → s.setUp = none →
    rest.Nodup →
      (∀ n ∈ rest, n ∈ s.trans) → FileInv (rest.foldl (FileState.checkTransfer input) s) := by
  induction rest with
  | nil => exact fun h _ _ _ ↦ h
  | cons n rest ih =>
    intro s h hsetUp hnodup hmem
    obtain ⟨hn, hrest⟩ := List.nodup_cons.mp hnodup
    obtain ⟨hnext, hnone, hothers⟩ := h.checkTransfer hsetUp (hmem n List.mem_cons_self) input
    exact ih hnext hnone hrest fun m hm ↦
      hothers m (hmem m (List.mem_cons_of_mem _ hm)) (ne_of_mem_of_not_mem hm hn)

theorem step (h : FileInv s) {call : FileState.Call} {next : FileState}
    (hstep : s.step call = some next) :
    FileInv next := by
  cases call with
  | socket transfer =>
    obtain ⟨hsetUp, hnext⟩ := Option.ite_none_right_eq_some.mp hstep
    exact Option.some.inj hnext ▸ h.tftpSocket (Option.isNone_iff_eq_none.mp hsetUp) transfer
  | bind found =>
    dsimp only [FileState.step] at hstep
    split at hstep
    · rename_i n hphase
      exact Option.some.inj hstep ▸ h.tftpBind hphase found
    · cases hstep
  | openFile site host packet place =>
    dsimp only [FileState.step] at hstep
    split at hstep
    · rename_i n hphase
      obtain ⟨hplace, hnext⟩ := Option.ite_none_right_eq_some.mp hstep
      exact Option.some.inj hnext ▸ h.tftpOpen hphase site host packet hplace
    · cases hstep
  | first readable =>
    dsimp only [FileState.step] at hstep
    split at hstep
    · rename_i n hphase
      exact Option.some.inj hstep ▸ h.tftpFirst hphase readable
    · cases hstep
  | check input =>
    obtain ⟨hsetUp, hnext⟩ := Option.ite_none_right_eq_some.mp hstep
    have hnodup : (s.trans ++ s.doneTrans).Nodup := by
      have hlive := h.holding.nodup
      unfold FileState.live at hlive
      rwa [Option.isNone_iff_eq_none.mp hsetUp] at hlive
    exact Option.some.inj hnext ▸ foldl_checkTransfer input s.trans h
      (Option.isNone_iff_eq_none.mp hsetUp) (List.nodup_append.mp hnodup).1 fun _ hm ↦ hm
  | scriptRun =>
    obtain ⟨hsetUp, hnext⟩ := Option.ite_none_right_eq_some.mp hstep
    exact Option.some.inj hnext ▸ h.scriptRun (Option.isNone_iff_eq_none.mp hsetUp)

theorem initial (h : s.Initial) : FileInv s := by
  obtain ⟨hsetUp, htrans, hdoneTrans, hslots, hopened, hclosed, hsockets, hclosedSockets⟩ := h
  have hlive : s.live = [] := by simp [FileState.live, hsetUp, htrans, hdoneTrans]
  refine ⟨?_, by simp [htrans, hdoneTrans], by simp [hsetUp], by simp [hsetUp]⟩
  rw [hlive]
  exact ⟨List.nodup_nil,
    by simp, Accounts.empty hslots hopened hclosed (by simp), by simp [hsockets, hclosedSockets]⟩

end FileInv

/-! ### Every run -/

end CrossBreeder.Dnsmasq
