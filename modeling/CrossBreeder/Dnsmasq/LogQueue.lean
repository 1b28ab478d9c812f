import CrossBreeder.Dnsmasq.Tftp
import CrossBreeder.Foundation.TextFields
import Mathlib.Data.List.Forall2

/-!
# The log queue

`my_syslog` puts a message into a queue and `log_write` writes what it can. `log_write` calls
`my_syslog` when it has written an entry and messages were lost before, and that calls `log_write`
again on the same queue, so a state has the calls that are not done yet, and a step is one write or
one return. For a connection whose type does not change, in one process, and for writes that
succeed, for all of an entry or a part, or are to be tried again, `logSound_of_reachable` says what
holds in every state, as long as the counter of lost messages does not overflow; it is an `int`.
-/

namespace CrossBreeder.Dnsmasq

open Foundation

/-! ### The queue -/

def maxMessage : ℕ := 1024

/-- Where the log goes, and `max_logs`. -/
structure LogParams where
  logToFile : Bool
  dgram : Bool
  maxLogs : ℕ

/-- `struct log_entry`. -/
structure LogEntry where
  offset : ℕ
  length : ℕ
  payload : List UInt8
  deriving DecidableEq, Repr

/-- What is logged: a line of dnsmasq, or that entries were lost, behind what `my_syslog` puts in
front. -/
inductive LogMessage
  | line (text : List UInt8)
  | overflow (head : List UInt8) (lost : ℤ)
  deriving DecidableEq, Repr

/-- The call that a state is in: the loop of `log_write`, or `my_syslog` behind its first
`log_write`. -/
inductive LogFrame
  | write
  | delay
  deriving DecidableEq, Repr

/-- The static variables of `log.c`, with the calls that are not done, the innermost one first. The
last three are not in the source: the messages that got an entry, for each one that got none the
number of messages that had got one by then, and all that was written. -/
structure LogState where
  stack : List LogFrame
  entries : List LogEntry
  freeEntries : ℕ
  entriesAlloced : ℕ
  entriesLost : ℤ
  connectionGood : Bool
  logged : List LogMessage
  missed : List ℕ
  written : List UInt8
  deriving DecidableEq, Repr

/-- What `write` returns. -/
inductive WriteResult
  | wrote (rc : ℕ)
  | eintr
  | eagain
  | enobufs
  deriving DecidableEq, Repr

/-- A call from elsewhere, a return, or a write, with what is put in front of a message that it
leads to. -/
inductive LogEvent
  | syslog (text : List UInt8) (memory : Bool)
  | flush
  | back
  | write (result : WriteResult) (head : List UInt8) (memory : Bool)
  deriving DecidableEq, Repr

/-! ### Messages and entries -/

namespace LogMessage

def text : LogMessage → List UInt8
  | line text => text
  | overflow head lost => head ++ (asciiBytes "overflow: " ++ asciiBytes (toString lost) ++
    asciiBytes " log entries lost")

def counts : LogMessage → ℕ
  | line _ => 0
  | overflow _ lost => lost.toNat

def payload (m : LogMessage) : List UInt8 := m.text.take (maxMessage - 1) ++ [0]

end LogMessage

namespace LogParams

def lenAdjust (params : LogParams) :
    ℕ := if params.logToFile then 0 else if params.dgram then 1 else 0

end LogParams

def LogEntry.new (m : LogMessage) : LogEntry := ⟨0, m.payload.length, m.payload⟩

/-- The zero is a newline in a file. -/
def LogEntry.terminate (params : LogParams) (entry : LogEntry) : LogEntry :=
  if params.logToFile then
    { entry with payload := entry.payload.set (entry.offset + entry.length - 1) 10 } else entry

namespace LogState

/-- `log_start`. -/
def start (params : LogParams) : LogState :=
  let allocated := if params.maxLogs = 0 then 1 else 0
  ⟨[], [], allocated, allocated, 0, true, [], [], []⟩

def append (s : LogState) (m : LogMessage) : LogState :=
  { s with entries := s.entries ++ [.new m], logged := s.logged ++ [m] }

/-- `my_syslog` up to the first `log_write`. -/
def syslog (params : LogParams) (s : LogState) (m : LogMessage) (memory : Bool) : LogState :=
  let s := { s with stack := .write :: .delay :: s.stack }
  if s.freeEntries ≠ 0 then { s with freeEntries := s.freeEntries - 1 }.append m
  else if s.entriesAlloced < params.maxLogs ∧ memory then
    { s with entriesAlloced := s.entriesAlloced + 1 }.append m
  else
    { s with
      entriesLost := narrowInt (s.entriesLost + 1)
      missed := s.missed ++ [s.logged.length] }

/-- `my_syslog` waits and writes again: the queue is not empty, nor full, and in the last eight
entries. -/
def Delays (params : LogParams) (s : LogState) : Prop :=
  s.entries ≠ [] ∧ params.maxLogs ≠ 0 ∧ s.entries.length ≠ params.maxLogs ∧
    (8 < params.maxLogs → params.maxLogs - 8 < s.entries.length)

instance (params : LogParams) (s : LogState) : Decidable (s.Delays params) :=
  inferInstanceAs (Decidable (_ ∧ _))

/-- `log_write` when an entry is written. -/
def finishEntry (params : LogParams) (s : LogState) (rest : List LogEntry) (head : List UInt8)
    (memory : Bool) : LogState :=
  let s := { s with entries := rest, freeEntries := s.freeEntries + 1 }
  -- `entries_lost` is 0 before the call
  if s.entriesLost ≠ 0 then
    { s with entriesLost := 0 }.syslog params (.overflow head s.entriesLost) memory else s

/-- One write of `log_write`. -/
def write (params : LogParams) (s : LogState) (entry : LogEntry) (rest : List LogEntry)
    (stack : List LogFrame) (result : WriteResult) (head : List UInt8) (memory : Bool) :
    Option LogState :=
  let entry := entry.terminate params
  let s := { s with entries := entry :: rest, connectionGood := true }
  match result with
  | .wrote rc =>
    if entry.length - params.lenAdjust < rc then none
    else
      let s := { s with written := s.written ++ (entry.payload.drop entry.offset).take rc }
      let entry := { entry with length := entry.length - rc, offset := entry.offset + rc }
      if entry.length = params.lenAdjust then some (s.finishEntry params rest head memory)
      else some { s with entries := entry :: rest }
  | .eintr => some s
  | .eagain => some { s with stack := stack }
  | .enobufs => some { s with connectionGood := false, stack := stack }

def step (params : LogParams) (s : LogState) (event : LogEvent) : Option LogState :=
  match s.stack, event with
  | [], .syslog text memory => some (s.syslog params (.line text) memory)
  -- `check_log_writer` and `flush_log`
  | [], .flush => some { s with stack := [.write] }
  | .write :: stack, .back => if s.entries = [] then some { s with stack := stack } else none
  | .write :: stack, .write result head memory =>
    match s.entries with
    | [] => none
    | entry :: rest => s.write params entry rest stack result head memory
  | .delay :: stack, .back =>
    some { s with stack := if s.Delays params then .write :: stack else stack }
  | _, _ => none

end LogState

/-- A message that finds no entry does not let the counter overflow. -/
def LogState.Counts (params : LogParams) (s : LogState) : LogEvent → Prop
  | .syslog _ memory => s.freeEntries = 0 →
      ¬ (s.entriesAlloced < params.maxLogs ∧ memory = true) → s.entriesLost + 1 < 2 ^ 31
  | _ => True

instance (params : LogParams) (s : LogState) :
    (event : LogEvent) → Decidable (s.Counts params event)
  | .syslog _ _ => inferInstanceAs (Decidable (_ → _ → _))
  | .flush => inferInstanceAs (Decidable True)
  | .back => inferInstanceAs (Decidable True)
  | .write _ _ _ => inferInstanceAs (Decidable True)

/-- Every run from `log_start` on. -/
def logSystem (params : LogParams) : System LogState LogEvent :=
  .ofStep (fun s ↦ s = .start params) (LogState.step params)

/-! ### What holds -/

/-- The bytes that are written for a message: a line of a file, a datagram, or a record of a stream.
-/
def LogParams.record (params : LogParams) (m : LogMessage) : List UInt8 :=
  m.text.take (maxMessage - 1) ++ if params.logToFile then [10] else if params.dgram then []
    else [0]

/-- The bytes of an entry that are not written yet. -/
def LogEntry.remaining (params : LogParams) (entry : LogEntry) : List UInt8 :=
  ((entry.terminate params).payload.drop entry.offset).take (entry.length - params.lenAdjust)

/-- The queue has the last messages that got an entry, in order, and what is written is the bytes of
all of them, each once, but for what is left of those in the queue. The entries are those that were
allocated. What was lost is reported or counted, and a report is later than the losses it is for. -/
structure LogSound (params : LogParams) (s : LogState) : Prop where
  queue : ∃ sent pending, s.logged = sent ++ pending ∧
    List.Forall₂ (fun m entry ↦ entry.remaining params <:+ params.record m) pending s.entries
  bytes : s.written ++ s.entries.flatMap (LogEntry.remaining params) =
    s.logged.flatMap params.record
  allocated : s.entries.length + s.freeEntries = s.entriesAlloced ∧
    s.entriesAlloced ≤ max params.maxLogs 1
  losses : s.missed.length = (s.logged.map LogMessage.counts).sum + s.entriesLost.toNat
  later : ∀ front m back, s.logged = front ++ m :: back →
    ∀ i < (front.map LogMessage.counts).sum + m.counts, ∀ position, s.missed[i]? = some position →
      position ≤ front.length
  /-- When an entry is written, nothing is lost that is not reported. -/
  prompt : ∀ entry rest head memory next, s.entries = entry :: rest →
    s.step params (.write (.wrote (entry.length - params.lenAdjust)) head memory) = some next →
      next.entriesLost = 0

/-! ### Entries -/

variable {params : LogParams} {s : LogState} {m : LogMessage} {entry : LogEntry}

def LogParams.contents (params : LogParams) (m : LogMessage) : List UInt8 :=
  m.text.take (maxMessage - 1) ++ if params.logToFile then [10] else [0]

structure HoldsMessage (params : LogParams) (m : LogMessage) (entry : LogEntry) : Prop where
  length : entry.offset + entry.length = m.payload.length
  adjust : params.lenAdjust ≤ entry.length
  payload : (entry.terminate params).payload = params.contents m

theorem record_eq (params : LogParams) (m : LogMessage) :
    params.record m = (params.contents m).take (m.payload.length - params.lenAdjust) := by
  unfold LogParams.record LogParams.contents LogMessage.payload LogParams.lenAdjust
  generalize m.text.take (maxMessage - 1) = text
  have hall : ∀ last : UInt8, (text ++ [last]).take (text.length + 1) = text ++ [last] := fun last ↦
    List.take_of_length_le (by simp)
  split_ifs <;> simp [hall]

theorem terminate_length (params : LogParams) (entry : LogEntry) :
    (entry.terminate params).length = entry.length := by
  unfold LogEntry.terminate
  split_ifs <;> rfl

theorem terminate_offset (params : LogParams) (entry : LogEntry) :
    (entry.terminate params).offset = entry.offset := by
  unfold LogEntry.terminate
  split_ifs <;> rfl

theorem HoldsMessage.new (params : LogParams) (m : LogMessage) :
    HoldsMessage params m (.new m) := by
  refine ⟨Nat.zero_add _, ?_, ?_⟩
  · unfold LogEntry.new LogMessage.payload LogParams.lenAdjust
    split_ifs <;> simp
  · unfold LogEntry.terminate LogEntry.new LogParams.contents LogMessage.payload
    split_ifs <;> simp

theorem HoldsMessage.remaining (h : HoldsMessage params m entry) : entry.remaining params =
    (params.record m).drop entry.offset := by
  have hlength := h.length
  rw [LogEntry.remaining, h.payload, record_eq, List.drop_take]
  congr 1
  omega

variable {rc : ℕ}

theorem HoldsMessage.advance (h : HoldsMessage params m entry)
    (hrc : rc ≤ entry.length - params.lenAdjust) :
    HoldsMessage params m
      { entry.terminate params with length := entry.length - rc, offset := entry.offset + rc } := by
  have hlength := h.length
  have hadjust := h.adjust
  refine ⟨?_, ?_, ?_⟩
  · change entry.offset + rc + (entry.length - rc) = _
    omega
  · change params.lenAdjust ≤ entry.length - rc
    omega
  · have hpayload := h.payload
    unfold LogEntry.terminate at hpayload ⊢
    split_ifs at hpayload ⊢
    · have hplace : entry.offset + rc + (entry.length - rc) - 1 =
        entry.offset + entry.length - 1 := by omega
      simpa [hplace] using hpayload
    · exact hpayload

theorem HoldsMessage.split (h : HoldsMessage params m entry)
    (hrc : rc ≤ entry.length - params.lenAdjust) :
    (((entry.terminate params).payload.drop entry.offset).take rc) ++
        ({ entry.terminate params with length := entry.length - rc, offset := entry.offset + rc } :
    LogEntry).remaining params =
      entry.remaining params := by
  rw [(h.advance hrc).remaining, LogEntry.remaining]
  have hrest : entry.offset + entry.length - params.lenAdjust - (entry.offset + rc) =
      entry.length - params.lenAdjust - rc := by
    have := h.adjust
    omega
  rw [h.payload, record_eq, ← h.length, List.drop_take, hrest, ← List.drop_drop, ← List.take_add,
    Nat.add_sub_cancel' hrc]

theorem remaining_eq_nil (hdone : entry.length = params.lenAdjust) : entry.remaining params =
    [] := by
  rw [LogEntry.remaining, hdone, Nat.sub_self, List.take_zero]

/-! ### Messages -/

/-- What holds of the messages, with some losses that are neither counted nor reported. -/
structure Messages (params : LogParams) (unreported : ℕ) (s : LogState) : Prop where
  queue : ∃ sent pending, s.logged = sent ++ pending ∧
    List.Forall₂ (HoldsMessage params) pending s.entries
  bytes : s.written ++ s.entries.flatMap (LogEntry.remaining params) =
    s.logged.flatMap params.record
  counter : 0 ≤ s.entriesLost
  losses : s.missed.length = (s.logged.map LogMessage.counts).sum + s.entriesLost.toNat + unreported
  early : ∀ position ∈ s.missed, position ≤ s.logged.length
  later : ∀ front m back, s.logged = front ++ m :: back →
    ∀ i < (front.map LogMessage.counts).sum + m.counts, ∀ position, s.missed[i]? = some position →
      position ≤ front.length

variable {unreported : ℕ}

theorem Messages.frame (h : Messages params unreported s) (stack : List LogFrame)
    (free allocated : ℕ) (good : Bool) :
    Messages params unreported
      { s with
      stack := stack, freeEntries := free, entriesAlloced := allocated, connectionGood := good } :=
  ⟨h.queue, h.bytes, h.counter, h.losses, h.early, h.later⟩

theorem Messages.append (h : Messages params unreported s) (hcounts : m.counts = unreported) :
    Messages params 0 (s.append m) := by
  obtain ⟨sent, pending, hlogged, hentries⟩ := h.queue
  have hnew : (LogEntry.new m).remaining params = params.record m :=
    (HoldsMessage.new params m).remaining
  refine ⟨⟨sent, pending ++ [m], ?_, ?_⟩, ?_, h.counter, ?_, ?_, ?_⟩
  · change s.logged ++ [m] = _
    rw [hlogged, List.append_assoc]
  · exact List.rel_append hentries (.cons (HoldsMessage.new params m) .nil)
  · change s.written ++ (s.entries ++ [LogEntry.new m]).flatMap _ = (s.logged ++ [m]).flatMap _
    rw [List.flatMap_append, ← List.append_assoc, h.bytes, List.flatMap_append,
      List.flatMap_singleton, List.flatMap_singleton, hnew]
  · change s.missed.length = ((s.logged ++ [m]).map LogMessage.counts).sum +
      s.entriesLost.toNat + 0
    have := h.losses
    simp [hcounts]
    omega
  · intro position hmem
    exact le_trans (h.early position hmem) (by simp [LogState.append])
  · intro front other back hsplit i hi position hposition
    rcases List.eq_nil_or_concat back with rfl | ⟨back, last, rfl⟩
    · obtain ⟨rfl, -⟩ := List.append_inj' hsplit rfl
      exact h.early position (List.mem_of_getElem? hposition)
    · change s.logged ++ [m] = _ at hsplit
      have hsame : s.logged ++ [m] = (front ++ other :: back) ++ [last] := by simpa using hsplit
      exact h.later front other back (List.append_inj' hsame rfl).1 i hi position hposition

theorem Messages.lose (h : Messages params 0 s) (hroom : s.entriesLost + 1 < 2 ^ 31) :
    Messages params 0
      { s with
        entriesLost := narrowInt (s.entriesLost + 1)
        missed := s.missed ++ [s.logged.length] } := by
  have hlosses := h.losses
  have hcounter := h.counter
  rw [narrowInt_eq_self (by omega) (by omega)]
  refine ⟨h.queue, h.bytes, Int.le_add_one hcounter, ?_, ?_,
    fun front other back hsplit i hi position hposition ↦ ?_⟩
  · simp only [List.length_append, List.length_singleton]
    omega
  · intro position hmem
    rcases List.mem_append.mp hmem with hold | hnew
    · exact h.early position hold
    · exact le_of_eq (List.mem_singleton.mp hnew)
  · have hreported : (front.map LogMessage.counts).sum + other.counts ≤ s.missed.length := by
      rw [hlosses]
      rw [hsplit]
      simp
      omega
    rw [List.getElem?_append_left (by omega)] at hposition
    exact h.later front other back hsplit i hi position hposition

structure EntryPool (params : LogParams) (s : LogState) : Prop where
  allocated : s.entries.length + s.freeEntries = s.entriesAlloced
  bound : s.entriesAlloced ≤ max params.maxLogs 1

theorem syslog_spec (hmessages : Messages params unreported s) (hpool : EntryPool params s)
    (hcounts : m.counts = unreported) (hfree : unreported ≠ 0 → s.freeEntries ≠ 0) (memory : Bool)
    (hroom : s.freeEntries = 0 → ¬ (s.entriesAlloced < params.maxLogs ∧ memory = true) →
      s.entriesLost + 1 < 2 ^ 31) :
    Messages params 0 (s.syslog params m memory) ∧ EntryPool params (s.syslog params m memory) := by
  have hallocated := hpool.allocated
  have hbound := hpool.bound
  unfold LogState.syslog
  dsimp only
  split_ifs with hsome halloc
  · refine ⟨Messages.append (hmessages.frame ..) hcounts, ?_, hbound⟩
    simp only [LogState.append, List.length_append, List.length_singleton]
    omega
  · refine ⟨Messages.append (hmessages.frame ..) hcounts, ?_, ?_⟩
    · simp only [LogState.append, List.length_append, List.length_singleton]
      omega
    · exact le_trans halloc.1 (le_max_left _ _)
  · obtain rfl : unreported = 0 := by
      by_contra hne
      exact hsome (hfree hne)
    exact ⟨(hmessages.lose (hroom (not_ne_iff.mp hsome) halloc)).frame .., hallocated, hbound⟩

variable {rest : List LogEntry}

theorem Messages.front (h : Messages params unreported s)
    (hentries : s.entries = entry :: rest) :
    ∃ sent m pending, s.logged = sent ++ m :: pending ∧ HoldsMessage params m entry ∧ List.Forall₂
      (HoldsMessage params) pending rest := by
  obtain ⟨sent, pending, hlogged, hall⟩ := h.queue
  rw [hentries] at hall
  cases hall with
  | cons hcarries hrest => exact ⟨sent, _, _, hlogged, hcarries, hrest⟩

/-- An entry of which a part is written. -/
def LogEntry.advance (params : LogParams) (entry : LogEntry) (rc : ℕ) : LogEntry :=
  { entry.terminate params with length := entry.length - rc, offset := entry.offset + rc }

theorem Messages.part (h : Messages params 0 s) (hentries : s.entries = entry :: rest)
    (hrc : rc ≤ entry.length - params.lenAdjust) :
    Messages params 0
      { s with
        entries := entry.advance params rc :: rest
        connectionGood := true
        written := s.written ++ ((entry.terminate params).payload.drop entry.offset).take rc } := by
  obtain ⟨sent, m, pending, hlogged, hcarries, hrest⟩ := h.front hentries
  have hbytes := h.bytes
  rw [hentries, List.flatMap_cons, ← hcarries.split hrc] at hbytes
  refine ⟨⟨sent, m :: pending, hlogged, .cons (hcarries.advance hrc) hrest⟩, ?_,
    h.counter, h.losses, h.early, h.later⟩
  rw [← hbytes, List.flatMap_cons, List.append_assoc, List.append_assoc]
  rfl

theorem Messages.whole (h : Messages params 0 s) (hentries : s.entries = entry :: rest)
    (hrc : rc ≤ entry.length - params.lenAdjust) (hdone : entry.length - rc = params.lenAdjust) :
    Messages params s.entriesLost.toNat
      { s with
        entries := rest
        connectionGood := true
        written := s.written ++ ((entry.terminate params).payload.drop entry.offset).take rc
        freeEntries := s.freeEntries + 1
        entriesLost := 0 } := by
  obtain ⟨sent, m, pending, hlogged, hcarries, hrest⟩ := h.front hentries
  have hbytes := h.bytes
  have hnil : (entry.advance params rc).remaining params = [] := remaining_eq_nil hdone
  have hsplit : _ ++ (entry.advance params rc).remaining params = entry.remaining params :=
    hcarries.split hrc
  rw [hentries, List.flatMap_cons, ← hsplit, hnil, List.append_nil] at hbytes
  refine ⟨⟨sent ++ [m], pending, by simp [hlogged], hrest⟩, ?_, le_rfl, ?_, h.early, h.later⟩
  · rw [← hbytes, List.append_assoc]
  · rw [h.losses, Nat.add_zero]
    rfl

/-! ### Every state -/

structure QueueInv (params : LogParams) (s : LogState) : Prop where
  messages : Messages params 0 s
  pool : EntryPool params s

theorem QueueInv.frame (h : QueueInv params s) (stack : List LogFrame) (good : Bool) :
    QueueInv params { s with stack := stack, connectionGood := good } :=
  ⟨h.messages.frame .., h.pool.allocated, h.pool.bound⟩

theorem QueueInv.part (h : QueueInv params s) (hentries : s.entries = entry :: rest)
    (hrc : rc ≤ entry.length - params.lenAdjust) :
    QueueInv params { s with
        entries := entry.advance params rc :: rest
        connectionGood := true
        written := s.written ++ ((entry.terminate params).payload.drop entry.offset).take rc } := by
  refine ⟨h.messages.part hentries hrc, ?_, h.pool.bound⟩
  have hallocated := h.pool.allocated
  rw [hentries] at hallocated
  exact hallocated

theorem QueueInv.finish (h : QueueInv params s) (hentries : s.entries = entry :: rest)
    (hrc : rc ≤ entry.length - params.lenAdjust) (hdone : entry.length - rc = params.lenAdjust)
    (head : List UInt8) (memory : Bool) :
    QueueInv params
      (LogState.finishEntry params
        { s with
          entries := entry.terminate params :: rest
          connectionGood := true
          written := s.written ++ ((entry.terminate params).payload.drop entry.offset).take rc }
        rest head memory) := by
  have hwhole := h.messages.whole hentries hrc hdone
  have hallocated := h.pool.allocated
  rw [hentries, List.length_cons, Nat.add_right_comm, Nat.add_assoc] at hallocated
  unfold LogState.finishEntry
  dsimp only
  split_ifs with hlost
  · obtain ⟨hmessages, hpool⟩ :=
      syslog_spec hwhole ⟨hallocated, h.pool.bound⟩ (m := .overflow head s.entriesLost) rfl
      (fun _ ↦ Nat.succ_ne_zero _) memory fun hnone ↦ absurd hnone (Nat.succ_ne_zero _)
    exact ⟨hmessages, hpool⟩
  · rw [not_ne_iff] at hlost
    rw [hlost] at hwhole
    refine ⟨⟨hwhole.queue, hwhole.bytes, hlost.ge, ?_, hwhole.early, hwhole.later⟩,
      hallocated, h.pool.bound⟩
    exact hlost ▸ hwhole.losses

theorem QueueInv.write {stack : List LogFrame} {result : WriteResult} {head : List UInt8}
    {memory : Bool} {next : LogState} (h : QueueInv params s) (hentries : s.entries = entry :: rest)
    (hwrite : s.write params entry rest stack result head memory = some next) :
    QueueInv params next := by
  have hsame : QueueInv params { s with
    entries := entry.terminate params :: rest, connectionGood := true } := by
    have hnothing := h.part hentries (Nat.zero_le _)
    have hentry : entry.advance params 0 = entry.terminate params := by
      unfold LogEntry.advance
      rw [Nat.sub_zero, Nat.add_zero, ← terminate_length params, ← terminate_offset params]
    rwa [hentry, List.take_zero, List.append_nil] at hnothing
  cases result with
  | wrote rc =>
    unfold LogState.write at hwrite
    simp only [terminate_length, terminate_offset] at hwrite
    split_ifs at hwrite with hmore hdone
    · obtain rfl := Option.some.inj hwrite
      exact h.finish hentries (not_lt.mp hmore) hdone head memory
    · obtain rfl := Option.some.inj hwrite
      exact h.part hentries (not_lt.mp hmore)
  | eintr =>
    obtain rfl := Option.some.inj hwrite
    exact hsame
  | eagain =>
    obtain rfl := Option.some.inj hwrite
    exact hsame.frame stack true
  | enobufs =>
    obtain rfl := Option.some.inj hwrite
    exact hsame.frame stack false

theorem QueueInv.step {event : LogEvent} {next : LogState} (h : QueueInv params s)
    (hcounts : s.Counts params event) (hstep : s.step params event = some next) :
    QueueInv params next := by
  unfold LogState.step at hstep
  split at hstep
  · obtain rfl := Option.some.inj hstep
    obtain ⟨hmessages, hpool⟩ :=
      syslog_spec h.messages h.pool (m := .line _) rfl (fun hne ↦ absurd rfl hne) _ hcounts
    exact ⟨hmessages, hpool⟩
  · obtain rfl := Option.some.inj hstep
    exact h.frame _ _
  · split_ifs at hstep
    obtain rfl := Option.some.inj hstep
    exact h.frame _ _
  · split at hstep
    · cases hstep
    · next hentries => exact h.write hentries hstep
  · obtain rfl := Option.some.inj hstep
    exact h.frame _ _
  · cases hstep

theorem QueueInv.start (params : LogParams) : QueueInv params (.start params) := by
  refine ⟨⟨⟨[], [], rfl, .nil⟩, rfl, le_rfl, rfl, fun _ hmem ↦ absurd hmem List.not_mem_nil,
    fun front m back hsplit ↦ ?_⟩, Nat.zero_add _, ?_⟩
  · cases front <;> cases hsplit
  · unfold LogState.start
    split_ifs with hzero
    · exact le_max_right _ _
    · exact Nat.zero_le _

theorem finishEntry_entriesLost (s : LogState) (rest : List LogEntry) (head : List UInt8)
    (memory : Bool) : (s.finishEntry params rest head memory).entriesLost = 0 := by
  unfold LogState.finishEntry
  dsimp only
  split_ifs with hlost
  · unfold LogState.syslog
    rw [if_pos (Nat.succ_ne_zero _)]
    rfl
  · exact not_ne_iff.mp hlost

theorem entriesLost_of_step {head : List UInt8} {memory : Bool} {next : LogState}
    (hadjust : params.lenAdjust ≤ entry.length) (hentries : s.entries = entry :: rest)
    (hstep : s.step params (.write (.wrote (entry.length - params.lenAdjust)) head memory) =
      some next) :
    next.entriesLost = 0 := by
  unfold LogState.step at hstep
  split at hstep
  case h_4 stack result head memory hstack hevent =>
    cases hevent
    rw [hentries] at hstep
    change s.write params entry rest stack _ head memory = some next at hstep
    unfold LogState.write at hstep
    simp only [terminate_length, terminate_offset, lt_irrefl, if_false, Nat.sub_sub_self hadjust,
      if_true] at hstep
    obtain rfl := Option.some.inj hstep
    exact finishEntry_entriesLost _ _ _ _
  all_goals simp_all

/-- Messages are written in the order they are logged, each byte of them once, entries are neither
lost nor made, and every message that gets no entry is counted in one later report: in every run of
`my_syslog` and `log_write` in which fewer than `2 ^ 31` messages are lost between two entries that
are written, for any calls, any writes that succeed for all of an entry or a part or are to be tried
again, and any lack of memory. -/
theorem logSound_of_reachable (params : LogParams) (s : LogState)
    (hreach : Reachable (logSystem params) (LogState.Counts params) s) : LogSound params s := by
  have hinv : QueueInv params s := by
    refine hreach.invariant (QueueInv params) ?_ fun state event next _ hstate hcounts hstep ↦
      hstate.step hcounts hstep
    rintro _ rfl
    exact .start params
  obtain ⟨sent, pending, hlogged, hall⟩ := hinv.messages.queue
  refine ⟨⟨sent, pending, hlogged, hall.imp fun m entry hcarries ↦ ?_⟩, hinv.messages.bytes,
    ⟨hinv.pool.allocated, hinv.pool.bound⟩, hinv.messages.losses, hinv.messages.later,
    fun entry rest head memory next hentries hstep ↦ ?_⟩
  · rw [hcarries.remaining]
    exact List.drop_suffix _ _
  · obtain ⟨-, m, -, -, hcarries, -⟩ := hinv.messages.front hentries
    exact entriesLost_of_step hcarries.adjust hentries hstep

/-- Three lines for two entries, of which none can be written. -/
def overflowRun : List LogEvent :=
  [.syslog [97] true, .write .eagain [] true, .back, .write .eagain [] true,
    .syslog [98] true, .write .eagain [] true, .back, .syslog [99] true, .write .eagain [] true,
      .back]

/-- The third line is lost, and when the first is written, that is reported. -/
theorem logSound_of_reachable_overflow :
    ∃ s, LogSound ⟨false, true, 2⟩ s ∧ s.missed = [2] ∧ s.entriesLost = 0 ∧
      s.entries.length = 2 := by
  have hrun :
    (runSteps (guardStep (LogState.Counts ⟨false, true, 2⟩) (LogState.step ⟨false, true, 2⟩))
      (.start ⟨false, true, 2⟩) (overflowRun ++ [.flush, .write (.wrote 1) [60] true])).any
      (fun s ↦ s.missed = [2] ∧ s.entriesLost = 0 ∧ s.entries.length = 2) = true := by decide
  obtain ⟨s, hreach, htest⟩ :=
    @exists_reachable_of_runSteps _ _ (logSystem ⟨false, true, 2⟩).initial _ _ rfl _ _ hrun
  exact ⟨s, logSound_of_reachable _ s hreach.of_guardStep, of_decide_eq_true htest⟩

/-- One entry with the line `a`, which cannot be written, and so many lines that were lost. -/
def stuckState (lost : ℕ) : LogState where
  stack := []
  entries := [.new (.line [97])]
  freeEntries := 0
  entriesAlloced := 1
  entriesLost := narrowInt lost
  connectionGood := true
  logged := [.line [97]]
  missed := List.replicate lost 1
  written := []

theorem reachable_stuckState (lost : ℕ) :
    Reachable (logSystem ⟨false, true, 1⟩) (fun _ _ ↦ True) (stuckState lost) := by
  induction lost with
  | zero =>
    have hrun : runSteps (LogState.step ⟨false, true, 1⟩) (.start ⟨false, true, 1⟩)
        [.syslog [97] true, .write .eagain [] true, .back] = some (stuckState 0) := by decide
    exact Reachable.of_runSteps (fun _ _ ↦ trivial) _ (.start rfl) hrun
  | succ lost ih =>
    have hrun : runSteps (LogState.step ⟨false, true, 1⟩) (stuckState lost)
        [.syslog [98] true, .write .eagain [] true, .back] = some (stuckState (lost + 1)) := by
      have hcounter : narrowInt (narrowInt lost + 1) = narrowInt (lost + 1 : ℕ) := by
        unfold narrowInt
        rw [Int.bmod_add_bmod]
        rfl
      have hmissed : List.replicate lost 1 ++ [1] = List.replicate (lost + 1) 1 :=
        List.replicate_succ'.symm
      simp [runSteps, LogState.step, LogState.syslog, LogState.write, LogState.Delays,
        LogEntry.terminate, stuckState, hcounter, hmissed]
    exact Reachable.of_runSteps (fun _ _ ↦ trivial) _ ih hrun

theorem eq_counter_of_logSound {lost : ℕ} (hsound : LogSound ⟨false, true, 1⟩ (stuckState lost)) :
    lost = (narrowInt lost).toNat := by
  have hlosses := hsound.losses
  simpa [stuckState, LogMessage.counts] using hlosses

/-- When `2 ^ 31` lines are lost before the entry is written, the counter is negative. -/
theorem not_logSound_stuckState :
    Reachable (logSystem ⟨false, true, 1⟩) (fun _ _ ↦ True) (stuckState (2 ^ 31)) ∧
      narrowInt (2 ^ 31 : ℕ) = -2 ^ 31 ∧ ¬ LogSound ⟨false, true, 1⟩ (stuckState (2 ^ 31)) := by
  have hcounter : narrowInt (2 ^ 31 : ℕ) = -2 ^ 31 := by decide
  refine ⟨reachable_stuckState _, hcounter, fun hsound ↦ ?_⟩
  have hlost := eq_counter_of_logSound hsound
  rw [hcounter] at hlost
  exact absurd hlost (by decide)

end CrossBreeder.Dnsmasq
