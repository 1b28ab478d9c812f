import CrossBreeder.Haveged.MainLoops
import Mathlib.Data.List.Chain

/-!
# The collector processes

A build for several cores has one process for each collector. A request of the main process is a
token: it travels from the semaphore of one collector to that of the next, each collector writes the
words that it has, and the one that writes the last word posts the completion.

`safe_of_reachable`: as long as no collector takes the token after a reported test failure, and none
reports its own status over a failure that is set, every request that succeeds was written in full,
each position once and by the collectors in turn, and the main process never waits for nothing.
`failedTest_hangs` is a run where it does: the collector that finds the failure exits without a
completion.
-/

namespace CrossBreeder.Haveged

open Foundation Function

/-! ### The processes -/

/-- The words that a collector writes in one turn, with their positions in the buffer. -/
structure Turn where
  collector : ℕ
  writes : List (ℕ × UInt32)

/-- Where a child of `havege_rngChild` is. -/
inductive ChildPhase
  /-- `havege_ndcreate` runs the startup tests. -/
  | starting
  /-- The startup tests have failed: the death will be announced. -/
  | failed
  /-- `error_exit` calls `havege_exit`. -/
  | dying
  /-- `havege_exit` posts the semaphores one after the other. -/
  | leaving (i : ℕ)
  | waiting
  | woken
  /-- `r` words will be written. -/
  | writing (r : ℕ) (written : List (ℕ × UInt32))
  | reported (i : ℕ)
  /-- The request is complete. -/
  | posting
  /-- The next collector has to go on. -/
  | passing
  | refilling
  | exited
  deriving DecidableEq

structure Child where
  phase : ChildPhase
  h : Collector

/-- Where the main process is in `havege_rng`. -/
inductive MainPhase
  | idle
  | stored
  | waiting
  | woken
  deriving DecidableEq

/-- A request that `havege_rng` has returned from, with the turns that were taken for it and the
error. -/
structure RngCall where
  sz : ℕ
  turns : List Turn
  error : HErr

/-- The main process, the shared `H_THREAD`, and the children. -/
structure Cores where
  main : MainPhase
  error : HErr
  sz : ℕ
  count : ℕ
  last : ℕ
  out : ℕ
  fatal : HErr
  flags : ℕ → ℕ
  children : ℕ → Child
  turns : List Turn
  requests : List RngCall

/-- The number of collectors that `havege_create` sets. -/
def nCores (n : ℕ) : ℕ := if n = 0 then 1 else n

theorem nCores_pos (n : ℕ) : 0 < nCores n := by
  unfold nCores
  split_ifs <;> omega

namespace Cores

/-- `sem_post`. -/
def post (s : Cores) (i : ℕ) : Cores := { s with flags := update s.flags i (s.flags i + 1) }

def goto (s : Cores) (c : ℕ) (phase : ChildPhase) : Cores :=
  { s with children := update s.children c { s.children c with phase := phase } }

/-- A child goes on with another state of its collector. -/
def gotoWith (s : Cores) (c : ℕ) (phase : ChildPhase) (h : Collector) : Cores :=
  { s with children := update s.children c ⟨phase, h⟩ }

def minus (a b : ℕ) : ℕ := if b ≤ a then a - b else a + 2 ^ 32 - b

/-- One step of a child that has started, with the rounds of a fill. -/
def childStep (n : ℕ) (s : Cores) (c : ℕ) (rounds : List Round) : Option Cores :=
  let h := (s.children c).h
  match (s.children c).phase with
  | .starting => none
  | .failed => some ((s.post n).goto c .dying)
  | .dying => some ({ s with fatal := .exit }.goto c (.leaving 0))
  | .leaving i => some ((s.post i).goto c (if i < n then .leaving (i + 1) else .exited))
  | .waiting =>
    if 0 < s.flags c then some ({ s with flags := update s.flags c (s.flags c - 1) }.goto c .woken)
      else none
  | .woken =>
    -- no completion is posted here
    if s.fatal ≠ .noErr then some (s.goto c .exited)
    else some ({ s with last := c }.goto c (.writing (min s.count (h.result.length - h.nptr)) []))
  | .writing r written =>
    if written.length < r then
      (ndread h rounds).bind fun (word, h, left) ↦
        if left = [] then
          some (s.gotoWith c (.writing r (written ++ [(s.out + written.length, word)])) h) else none
    else some ({ s with fatal := h.havegeErr, turns := s.turns ++ [Turn.mk c written] }.goto c
      (.reported written.length))
  | .reported i =>
    let count := minus s.count i
    if count = 0 then some ({ s with count := count }.goto c .posting)
    else some ({ s with count := count, out := s.out + i }.goto c .passing)
  | .posting => some ((s.post n).goto c .waiting)
  | .passing => some ((s.post ((c + 1) % n)).goto c .refilling)
  | .refilling =>
    (ndread h rounds).bind fun (_, h, left) ↦
      if left = [] then some (s.gotoWith c .waiting { h with nptr := 0 }) else none
  | .exited => none

/-- One step of the main process inside `havege_rng`. -/
def mainStep (n : ℕ) (s : Cores) : Option Cores :=
  match s.main with
  | .idle => none
  | .stored => some { s.post s.last with main := .waiting }
  | .waiting =>
    if 0 < s.flags n then some { s with flags := update s.flags n (s.flags n - 1), main := .woken }
      else none
  | .woken =>
    let error := if s.fatal ≠ .noErr then s.fatal else s.error
    some { s with main := .idle, error := error, requests := s.requests ++
      [⟨s.sz, s.turns, error⟩] }

end Cores

inductive CoresEvent
  /-- The startup tests of a child end. -/
  | start (c : ℕ) (passed : Bool)
  | child (c : ℕ) (rounds : List Round)
  /-- `havege_rng` is called. -/
  | request (sz : ℕ)
  | main

namespace Cores

def next (n : ℕ) (s : Cores) : CoresEvent → Option Cores
  | .start c passed =>
    if c < n ∧ (s.children c).phase = .starting then
      if passed then
        some (s.goto c .waiting) else some ({ s with fatal := .noTestTot }.goto c .failed)
    else none
  | .child c rounds => if c < n then s.childStep n c rounds else none
  | .request sz =>
    if s.main = .idle then
      some { s with main := .stored, sz := sz, count := sz, out := 0, turns := [] } else none
  | .main => s.mainStep n

def begin : Cores :=
  ⟨.idle, .noErr, 0, 0, 0, 0, .noErr, fun _ ↦ 0, fun _ ↦ ⟨.starting, ndcreate⟩, [], []⟩

/-- The main process waits for a completion that nobody will post. -/
def Hangs (n : ℕ) (s : Cores) : Prop :=
  s.main = .waiting ∧ (∀ i ≤ n, s.flags i = 0) ∧
    ∀ c < n, (s.children c).phase = .waiting ∨ (s.children c).phase = .exited

instance (n : ℕ) (s : Cores) : Decidable (s.Hangs n) := inferInstanceAs (Decidable (_ ∧ _ ∧ _))

end Cores

def positions (turns : List Turn) : List ℕ := turns.flatMap fun turn ↦ turn.writes.map Prod.fst

def InTurn (n : ℕ) (turns : List Turn) : Prop :=
  (turns.map Turn.collector).IsChain fun c c' ↦ c' = (c + 1) % n

/-- All positions were written, each once and one after the other, by the collectors in turn. -/
structure RngCall.Complete (n : ℕ) (request : RngCall) : Prop where
  positions : positions request.turns = List.range request.sz
  inTurn : InTurn n request.turns

structure Cores.Safe (n : ℕ) (s : Cores) : Prop where
  complete : ∀ request ∈ s.requests, request.error = .noErr → request.Complete n
  live : ¬ s.Hangs n

/-- No collector takes the token when a test failure was reported, and none reports over an error
that is set. -/
def ErrorsHeeded (s : Cores) : CoresEvent → Prop
  | .child c _ =>
    match (s.children c).phase with
    | .woken => s.fatal ≠ .noTestRun
    | .writing r written => written.length < r ∨ s.fatal = .noErr
    | _ => True
  | _ => True

instance (s : Cores) (event : CoresEvent) : Decidable (ErrorsHeeded s event) := by
  cases event with
  | child c rounds => unfold ErrorsHeeded; dsimp only; split <;> infer_instance
  | _ => exact instDecidableTrue

def coresSystem (n : ℕ) : System Cores CoresEvent := .ofStep (· = .begin) (Cores.next (nCores n))

/-! ### What a step leaves alone -/

def HErr.Online (err : HErr) : Prop := err = .noErr ∨ err = .noTestRun

theorem fill_online (rounds : List Round) :
    ∀ {err : HErr} {h : Collector} {rest : List Round}, err.Online → fill rounds err = some
      (h, rest) →
      h.havegeErr.Online := by
  induction rounds with
  | nil => exact fun _ hfill ↦ absurd hfill (by simp [fill])
  | cons round rounds ih =>
    intro err h rest honline hfill
    unfold fill at hfill
    dsimp only at hfill
    have hstatus : (if round.failed then HErr.noTestRun else err).Online := by
      split_ifs
      · exact .inr rfl
      · exact honline
    generalize (if round.failed then HErr.noTestRun else err) = status at hfill hstatus
    split_ifs at hfill
    · exact ih hstatus hfill
    · obtain ⟨rfl, -⟩ := Prod.mk.inj (Option.some.inj hfill)
      exact hstatus

theorem ndread_online {h h' : Collector} {rounds rest : List Round} {word : UInt32}
    (honline : h.havegeErr.Online) (hread : ndread h rounds = some (word, h', rest)) :
    h'.havegeErr.Online := by
  unfold ndread at hread
  split_ifs at hread
  · simp only [Option.some.injEq, Prod.mk.injEq] at hread
    obtain ⟨-, rfl, -⟩ := hread
    exact honline
  · obtain ⟨⟨filled, left⟩, hfill, heq⟩ := Option.map_eq_some_iff.mp hread
    simp only [Prod.mk.injEq] at heq
    obtain ⟨-, rfl, -⟩ := heq
    have honline' := fill_online rounds honline hfill
    exact honline'

variable {rounds : List Round}

namespace Cores

section Frame

variable {n c : ℕ} {s s' : Cores} {rounds : List Round}

/-- What a step of a child leaves alone. The shared status changes when the child leaves and when it
reports. -/
structure ChildEffect (c : ℕ) (s s' : Cores) : Prop where
  children : ∀ k, k ≠ c → s'.children k = s.children k
  flags : ∀ k, k ≠ c → s.flags k ≤ s'.flags k
  main : s'.main = s.main
  requests : s'.requests = s.requests
  fatal : s'.fatal = s.fatal ∨ s'.fatal = .exit ∨
    ∃ r written, (s.children c).phase = .writing r written ∧ ¬ written.length < r

theorem ChildEffect.quiet {child : Child} (hchildren : s'.children = update s.children c child)
    (hflags : s'.flags = s.flags) (hmain : s'.main = s.main) (hrequests : s'.requests = s.requests)
    (hfatal : s'.fatal = s.fatal) : ChildEffect c s s' :=
  ⟨fun _ hne ↦
    by rw [hchildren, update_of_ne hne], fun _ _ ↦ by rw [hflags], hmain, hrequests, .inl hfatal⟩

theorem flags_le_post (s : Cores) (i k : ℕ) : s.flags k ≤ (s.post i).flags k := by
  unfold post
  dsimp only
  obtain rfl | hne := eq_or_ne k i
  · rw [update_self]
    omega
  · rw [update_of_ne hne]

theorem ChildEffect.post (i : ℕ) (phase : ChildPhase) : ChildEffect c s ((s.post i).goto c phase) :=
  ⟨fun _ hne ↦ update_of_ne hne _ _, fun k _ ↦ flags_le_post s i k, rfl, rfl, .inl rfl⟩

theorem childEffect_of_childStep (hstep : s.childStep n c rounds = some s') :
    ChildEffect c s s' := by
  unfold childStep at hstep
  dsimp only at hstep
  split at hstep
  · exact absurd hstep (by simp)
  · obtain rfl := Option.some.inj hstep
    exact .post _ _
  · obtain rfl := Option.some.inj hstep
    exact ⟨fun _ hne ↦ update_of_ne hne _ _, fun _ _ ↦ le_rfl, rfl, rfl, .inr (.inl rfl)⟩
  · obtain rfl := Option.some.inj hstep
    exact .post _ _
  · split_ifs at hstep
    obtain rfl := Option.some.inj hstep
    exact ⟨fun _ hne ↦ update_of_ne hne _ _, fun _ hne ↦ (update_of_ne hne _ _).ge, rfl,
      rfl, .inl rfl⟩
  · split_ifs at hstep <;> obtain rfl := Option.some.inj hstep
    · exact .quiet rfl rfl rfl rfl rfl
    · exact .quiet rfl rfl rfl rfl rfl
  · next r written hphase =>
    split_ifs at hstep with hmore
    · obtain ⟨⟨word, h, left⟩, -, hstep⟩ := Option.bind_eq_some_iff.mp hstep
      split_ifs at hstep
      obtain rfl := Option.some.inj hstep
      exact .quiet rfl rfl rfl rfl rfl
    · obtain rfl := Option.some.inj hstep
      exact ⟨fun _ hne ↦ update_of_ne hne _ _, fun _ _ ↦
        le_rfl, rfl, rfl, .inr (.inr ⟨r, written, hphase, hmore⟩)⟩
  · split_ifs at hstep <;> obtain rfl := Option.some.inj hstep
    · exact .quiet rfl rfl rfl rfl rfl
    · exact .quiet rfl rfl rfl rfl rfl
  · obtain rfl := Option.some.inj hstep
    exact .post _ _
  · obtain rfl := Option.some.inj hstep
    exact .post _ _
  · obtain ⟨⟨word, h, left⟩, -, hstep⟩ := Option.bind_eq_some_iff.mp hstep
    split_ifs at hstep
    obtain rfl := Option.some.inj hstep
    exact .quiet rfl rfl rfl rfl rfl
  · exact absurd hstep (by simp)

end Frame

/-! ### After a failed start -/

/-- A child whose startup tests have failed. Its own semaphore is posted before it is gone, and
nobody waits for it. -/
def Doomed (n : ℕ) (s : Cores) (c : ℕ) : Prop :=
  match (s.children c).phase with
  | .failed => True
  | .dying => True
  | .leaving i => i ≤ n ∧ (c < i → 0 < s.flags c)
  | .exited => 0 < s.flags c
  | _ => False

structure Broken (n : ℕ) (s : Cores) : Prop where
  fatal : ¬ s.fatal.Online
  doomed : ∃ c < n, s.Doomed n c

theorem Broken.not_hangs {n : ℕ} {s : Cores} (hbroken : s.Broken n) : ¬ s.Hangs n := by
  obtain ⟨c, hc, hdoomed⟩ := hbroken.doomed
  rintro ⟨-, hflags, hchildren⟩
  unfold Doomed at hdoomed
  obtain hphase | hphase := hchildren c hc
  · rw [hphase] at hdoomed
    exact hdoomed
  · rw [hphase] at hdoomed
    exact absurd (hflags c hc.le) hdoomed.ne'

/-- A doomed child stays doomed when its own entry does not change and its semaphore is not taken.
-/
theorem Doomed.mono {n c : ℕ} {s s' : Cores} (hdoomed : s.Doomed n c)
    (hchild : s'.children c = s.children c) (hflags : s.flags c ≤ s'.flags c) : s'.Doomed n c := by
  unfold Doomed at hdoomed ⊢
  rw [hchild]
  cases hphase : (s.children c).phase with
  | leaving i =>
    rw [hphase] at hdoomed
    exact ⟨hdoomed.1, fun hlt ↦ (hdoomed.2 hlt).trans_le hflags⟩
  | exited =>
    rw [hphase] at hdoomed
    exact hdoomed.trans_le hflags
  | failed => trivial
  | dying => trivial
  | _ =>
    rw [hphase] at hdoomed
    exact hdoomed.elim

theorem Doomed.childStep {n c : ℕ} {s s' : Cores} (hdoomed : s.Doomed n c) (hc : c < n)
    (hstep : s.childStep n c rounds = some s') : s'.Doomed n c := by
  unfold Doomed at hdoomed
  unfold Cores.childStep at hstep
  cases hphase : (s.children c).phase with
  | failed =>
    rw [hphase] at hstep
    obtain rfl := Option.some.inj hstep
    simp [Doomed, goto]
  | dying =>
    rw [hphase] at hstep
    obtain rfl := Option.some.inj hstep
    simp [Doomed, goto]
  | leaving i =>
    rw [hphase] at hstep hdoomed
    obtain rfl := Option.some.inj hstep
    -- its own semaphore is among those that it posts
    have hposted : c < i + 1 → 0 < (s.post i).flags c := by
      intro hlt
      obtain rfl | hne := eq_or_ne c i
      · simp [post]
      · exact (hdoomed.2 (by omega)).trans_le (flags_le_post s i c)
    unfold Doomed goto
    simp only [update_self]
    split_ifs with hmore
    · exact ⟨hmore, hposted⟩
    · exact hposted (by have := hdoomed.1; omega)
  | exited =>
    rw [hphase] at hstep
    exact absurd hstep (by simp)
  | _ =>
    rw [hphase] at hdoomed
    exact hdoomed.elim

theorem Broken.child {n c : ℕ} {s s' : Cores} (hbroken : s.Broken n) (hc : c < n)
    (hheeded : ErrorsHeeded s (.child c rounds)) (hstep : s.childStep n c rounds = some s') :
    s'.Broken n := by
  have heffect := childEffect_of_childStep hstep
  constructor
  · obtain hsame | hexit | ⟨r, written, hphase, hmore⟩ := heffect.fatal
    · rw [hsame]
      exact hbroken.fatal
    · rw [hexit]
      simp [HErr.Online]
    · -- it would report over the error
      unfold ErrorsHeeded at hheeded
      dsimp only at hheeded
      rw [hphase] at hheeded
      exact absurd (.inl (hheeded.resolve_left hmore)) hbroken.fatal
  · obtain ⟨k, hk, hdoomed⟩ := hbroken.doomed
    refine ⟨k, hk, ?_⟩
    obtain rfl | hne := eq_or_ne k c
    · exact hdoomed.childStep hk hstep
    · exact hdoomed.mono (heffect.children k hne) (heffect.flags k hne)


/-! ### The token -/

inductive Owner
  | main
  | flag (i : ℕ)
  | child (c : ℕ)
  deriving DecidableEq

def Written (n : ℕ) (s : Cores) : Prop := positions s.turns = List.range s.sz ∧ InTurn n s.turns

/-- The words before `out` are written, and the turn is at `c`. -/
structure Underway (n : ℕ) (s : Cores) (c : ℕ) : Prop where
  positions : positions s.turns = List.range s.out
  left : s.out + s.count = s.sz
  inTurn : InTurn n (s.turns ++ [⟨c, []⟩])

/-- How far the child with the token is. -/
def Stage (n : ℕ) (s : Cores) (c : ℕ) : ChildPhase → Prop
  | .woken => s.Underway n c
  | .writing r written => s.Underway n c ∧ r ≤ s.count ∧ written.length ≤ r ∧
      written.map Prod.fst = (List.range written.length).map (s.out + ·)
  | .reported i => positions s.turns = List.range (s.out + i) ∧ i ≤ s.count ∧
    s.out + s.count = s.sz ∧
      InTurn n (s.turns ++ [⟨(c + 1) % n, []⟩])
  | .posting => s.Written n
  | .passing => s.Underway n ((c + 1) % n)
  | _ => False

/-- How far the request is, by the place of the token. -/
def Progress (n : ℕ) (s : Cores) : Owner → Prop
  | .main => match s.main with
    | .idle => True
    | .stored => s.turns = [] ∧ s.out = 0 ∧ s.count = s.sz
    | .waiting => False
    | .woken => s.Written n
  | .flag i => s.main = .waiting ∧ (i < n ∧ s.Underway n i ∨ i = n ∧ s.Written n)
  | .child c => s.main = .waiting ∧ c < n ∧ s.Stage n c (s.children c).phase

/-- A child without the token. -/
def Resting (s : Cores) (c : ℕ) : Prop :=
  (s.children c).phase = .starting ∨ (s.children c).phase = .waiting ∨
    (s.children c).phase = .refilling

structure Calm (n : ℕ) (s : Cores) (owner : Owner) : Prop where
  flags : ∀ i, s.flags i = if owner = .flag i then 1 else 0
  resting : ∀ c < n, owner ≠ .child c → s.Resting c
  status : ∀ c, (s.children c).h.havegeErr.Online
  fatal : s.fatal.Online
  last : s.last < n
  progress : s.Progress n owner

theorem Calm.not_hangs {n : ℕ} {s : Cores} {owner : Owner} (hcalm : s.Calm n owner) :
    ¬ s.Hangs n := by
  rintro ⟨hmain, hflags, hchildren⟩
  have hprogress := hcalm.progress
  cases owner with
  | main =>
    unfold Progress at hprogress
    rw [hmain] at hprogress
    exact hprogress
  | flag i =>
    have hle : i ≤ n := by
      obtain ⟨-, ⟨hlt, -⟩ | ⟨rfl, -⟩⟩ := hprogress
      · exact hlt.le
      · exact le_rfl
    have hposted := hcalm.flags i
    rw [hflags i hle, if_pos rfl] at hposted
    exact absurd hposted (by simp)
  | child c =>
    obtain ⟨-, hc, hstage⟩ := hprogress
    obtain hphase | hphase := hchildren c hc
    · rw [hphase] at hstage
      exact hstage
    · rw [hphase] at hstage
      exact hstage

section Turns

variable {n c : ℕ} {turns : List Turn}

theorem inTurn_of_append {turn : Turn} (hturns : InTurn n (turns ++ [turn])) : InTurn n turns := by
  unfold InTurn at hturns ⊢
  rw [List.map_append, List.isChain_append] at hturns
  exact hturns.1

theorem inTurn_next (written : List (ℕ × UInt32)) (hturns : InTurn n (turns ++ [⟨c, []⟩])) :
    InTurn n (turns ++ [⟨c, written⟩] ++ [⟨(c + 1) % n, []⟩]) := by
  unfold InTurn at hturns ⊢
  simp only [List.map_append, List.map_cons, List.map_nil] at hturns ⊢
  rw [List.isChain_append]
  refine ⟨hturns, List.isChain_singleton _, ?_⟩
  simp

theorem positions_append (turn : Turn) :
    positions (turns ++ [turn]) = positions turns ++ turn.writes.map Prod.fst := by
  unfold positions
  rw [List.flatMap_append, List.flatMap_singleton]

end Turns

section Token

variable {n c : ℕ} {s s' : Cores} {owner : Owner}

theorem status_update {child : Child} (hstatus : ∀ k, (s.children k).h.havegeErr.Online)
    (hchild : child.h.havegeErr.Online) (k : ℕ) :
    (update s.children c child k).h.havegeErr.Online := by
  obtain rfl | hne := eq_or_ne k c
  · rw [update_self]
    exact hchild
  · rw [update_of_ne hne]
    exact hstatus k

theorem flags_posted (hcalm : s.Calm n owner) (hno : ∀ k, owner ≠ .flag k) (i k : ℕ) :
    update s.flags i (s.flags i + 1) k = if Owner.flag i = .flag k then 1 else 0 := by
  have hnone := hcalm.flags k
  rw [if_neg (hno k)] at hnone
  obtain rfl | hne := eq_or_ne k i
  · rw [update_self, if_pos rfl, hnone]
  · rw [update_of_ne hne, if_neg (by simpa using hne.symm), hnone]

theorem Calm.owner_eq_flag {i : ℕ} (hcalm : s.Calm n owner) (hposted : 0 < s.flags i) :
    owner = .flag i := by
  by_contra hne
  have hzero := hcalm.flags i
  rw [if_neg hne] at hzero
  omega

theorem flags_taken {i : ℕ} (hcalm : s.Calm n (.flag i)) (k : ℕ) :
    update s.flags i (s.flags i - 1) k = 0 := by
  have hflag := hcalm.flags k
  obtain rfl | hne := eq_or_ne k i
  · rw [if_pos rfl] at hflag
    rw [update_self, hflag]
  · rw [if_neg (by simpa using hne.symm)] at hflag
    rw [update_of_ne hne, hflag]

theorem Progress.congr (hprogress : s.Progress n owner) (hmain : s'.main = s.main)
    (hturns : s'.turns = s.turns) (hout : s'.out = s.out) (hcount : s'.count = s.count)
    (hsz : s'.sz = s.sz) (hchild : ∀ k, owner = .child k → s'.children k = s.children k) :
    s'.Progress n owner := by
  have hwritten : s.Written n → s'.Written n := by
    unfold Written
    rw [hturns, hsz]
    exact id
  have hunderway : ∀ k, s.Underway n k → s'.Underway n k := by
    rintro k ⟨hpositions, hleft, hturn⟩
    rw [← hturns] at hpositions hturn
    exact ⟨by rw [hpositions, hout], by rw [hout, hcount, hleft, hsz], hturn⟩
  cases owner with
  | main =>
    unfold Progress at hprogress ⊢
    rw [hmain]
    cases hphase : s.main with
    | stored =>
      rw [hphase] at hprogress
      rw [hturns, hout, hcount, hsz]
      exact hprogress
    | woken =>
      rw [hphase] at hprogress
      exact hwritten hprogress
    | idle => trivial
    | waiting =>
      rw [hphase] at hprogress
      exact hprogress
  | flag i =>
    obtain ⟨hwaits, hstage⟩ := hprogress
    exact ⟨hmain.trans hwaits, hstage.imp (And.imp_right (hunderway i)) (And.imp_right hwritten)⟩
  | child k =>
    obtain ⟨hwaits, hk, hstage⟩ := hprogress
    refine ⟨hmain.trans hwaits, hk, ?_⟩
    rw [hchild k rfl]
    cases hphase : (s.children k).phase with
    | woken =>
      rw [hphase] at hstage
      exact hunderway k hstage
    | writing r written =>
      rw [hphase] at hstage
      obtain ⟨hway, hr, hlength, hpositions⟩ := hstage
      exact ⟨hunderway k hway, by rw [hcount]; exact hr, hlength, by rw [hout]; exact hpositions⟩
    | reported i =>
      rw [hphase] at hstage
      unfold Stage at hstage ⊢
      rw [hturns, hout, hcount, hsz]
      exact hstage
    | posting =>
      rw [hphase] at hstage
      exact hwritten hstage
    | passing =>
      rw [hphase] at hstage
      exact hunderway _ hstage
    | _ =>
      rw [hphase] at hstage
      exact hstage.elim

theorem Calm.stay {child : Child} (hcalm : s.Calm n (.child c))
    (hchildren : s'.children = update s.children c child) (hflags : s'.flags = s.flags)
    (hmain : s'.main = s.main) (hstatus : child.h.havegeErr.Online)
    (hfatal : s'.fatal.Online) (hlast : s'.last < n) (hstage : s'.Stage n c child.phase) :
    s'.Calm n (.child c) := by
  refine ⟨fun i ↦ hflags ▸ hcalm.flags i, ?_, ?_, hfatal, hlast, ?_⟩
  · intro k hk howner
    have hne : k ≠ c := fun heq ↦ howner (by rw [heq])
    unfold Resting
    rw [hchildren, update_of_ne hne]
    exact hcalm.resting k hk howner
  · intro k
    rw [hchildren]
    exact status_update hcalm.status hstatus k
  · obtain ⟨hwaits, hc, -⟩ := hcalm.progress
    refine ⟨hmain.trans hwaits, hc, ?_⟩
    rw [hchildren, update_self]
    exact hstage

theorem Calm.hand {i : ℕ} {phase : ChildPhase} (hcalm : s.Calm n (.child c))
    (hphase : phase = .waiting ∨ phase = .refilling) (hgoal : i < n ∧ s.Underway n i ∨ i = n ∧
      s.Written n) : ((s.post i).goto c phase).Calm n (.flag i) := by
  refine ⟨?_, ?_, ?_, hcalm.fatal, hcalm.last, ?_⟩
  · exact flags_posted hcalm (by simp) i
  · intro k hk _
    unfold Resting goto
    dsimp only
    obtain rfl | hne := eq_or_ne k c
    · rw [update_self]
      exact .inr hphase
    · rw [update_of_ne hne]
      exact hcalm.resting k hk (by simpa using hne.symm)
  · exact status_update hcalm.status (hcalm.status c)
  · exact ⟨hcalm.progress.1, hgoal.imp (And.imp_right fun ⟨h1, h2, h3⟩ ↦ ⟨h1, h2, h3⟩) id⟩

theorem Calm.rest (hcalm : s.Calm n owner) (hc : c < n) (howner : owner ≠ .child c)
    (hstep : s.childStep n c rounds = some s') : ∃ owner', s'.Calm n owner' := by
  unfold childStep at hstep
  obtain hphase | hphase | hphase := hcalm.resting c hc howner
  · rw [hphase] at hstep
    exact absurd hstep (by simp)
  · rw [hphase] at hstep
    dsimp only at hstep
    split_ifs at hstep with hposted
    obtain rfl := Option.some.inj hstep
    -- the token was in its semaphore
    obtain rfl := hcalm.owner_eq_flag hposted
    refine ⟨.child c, ?_, ?_, ?_, hcalm.fatal, hcalm.last, ?_⟩
    · intro k
      rw [if_neg (by simp)]
      exact flags_taken hcalm k
    · intro k hk hother
      have hne : k ≠ c := fun heq ↦ hother (by rw [heq])
      unfold Resting goto
      dsimp only
      rw [update_of_ne hne]
      exact hcalm.resting k hk (by simp)
    · exact status_update hcalm.status (hcalm.status c)
    · obtain ⟨hwaits, ⟨-, hway⟩ | ⟨heq, -⟩⟩ := hcalm.progress
      · refine ⟨hwaits, hc, ?_⟩
        unfold goto
        dsimp only
        rw [update_self]
        exact ⟨hway.1, hway.2, hway.3⟩
      · exact absurd heq hc.ne
  · rw [hphase] at hstep
    obtain ⟨⟨word, h, left⟩, hread, hstep⟩ := Option.bind_eq_some_iff.mp hstep
    dsimp only at hstep
    split_ifs at hstep
    obtain rfl := Option.some.inj hstep
    refine ⟨owner, hcalm.flags, ?_, ?_, hcalm.fatal, hcalm.last, ?_⟩
    · intro k hk hother
      unfold Resting gotoWith
      dsimp only
      obtain rfl | hne := eq_or_ne k c
      · rw [update_self]
        exact .inr (.inl rfl)
      · rw [update_of_ne hne]
        exact hcalm.resting k hk hother
    · have honline := ndread_online (hcalm.status c) hread
      exact status_update hcalm.status honline
    · refine hcalm.progress.congr rfl rfl rfl rfl rfl fun k hk ↦ update_of_ne ?_ _ _
      rintro rfl
      exact howner hk

theorem Calm.turn (hcalm : s.Calm n (.child c)) (hheeded : ErrorsHeeded s (.child c rounds))
    (hstep : s.childStep n c rounds = some s') : ∃ owner', s'.Calm n owner' := by
  obtain ⟨hwaits, hc, hstage⟩ := hcalm.progress
  unfold ErrorsHeeded at hheeded
  unfold childStep at hstep
  dsimp only at hstep hheeded
  cases hphase : (s.children c).phase with
  | woken =>
    rw [hphase] at hstep hstage hheeded
    have hnone : s.fatal = .noErr := hcalm.fatal.resolve_right hheeded
    simp only [hnone, ne_eq, not_true_eq_false, if_false] at hstep
    obtain rfl := Option.some.inj hstep
    refine ⟨.child c, hcalm.stay rfl rfl rfl (hcalm.status c) (.inl rfl) hc ?_⟩
    exact ⟨⟨hstage.1, hstage.2, hstage.3⟩, Nat.min_le_left _ _, Nat.zero_le _, rfl⟩
  | writing r written =>
    rw [hphase] at hstep hstage
    obtain ⟨hway, hr, hlength, hwritten⟩ := hstage
    dsimp only at hstep
    split_ifs at hstep with hmore
    · obtain ⟨⟨word, h, left⟩, hread, hstep⟩ := Option.bind_eq_some_iff.mp hstep
      split_ifs at hstep
      obtain rfl := Option.some.inj hstep
      have honline := ndread_online (hcalm.status c) hread
      refine ⟨.child c, hcalm.stay rfl rfl rfl honline hcalm.fatal hcalm.last ?_⟩
      refine ⟨⟨hway.1, hway.2, hway.3⟩, hr, ?_, ?_⟩
      · rw [List.length_append, List.length_singleton]
        exact hmore
      · rw [List.length_append, List.length_singleton, List.range_succ, List.map_append,
          List.map_append, hwritten]
        rfl
    · obtain rfl := Option.some.inj hstep
      refine ⟨.child c, hcalm.stay rfl rfl rfl (hcalm.status c) (hcalm.status c) hcalm.last ?_⟩
      refine ⟨?_, hlength.trans hr, hway.left, inTurn_next written hway.inTurn⟩
      unfold goto
      rw [positions_append, hway.positions, hwritten, List.range_add]
  | reported i =>
    rw [hphase] at hstep hstage
    obtain ⟨hpositions, hi, hleft, hturns⟩ := hstage
    have hminus : minus s.count i = s.count - i := if_pos hi
    dsimp only at hstep
    rw [hminus] at hstep
    split_ifs at hstep with hzero
    · obtain rfl := Option.some.inj hstep
      refine ⟨.child c, hcalm.stay rfl rfl rfl (hcalm.status c) hcalm.fatal hcalm.last
        ⟨?_, inTurn_of_append hturns⟩⟩
      have hall : s.out + i = s.sz := by omega
      rw [← hall]
      exact hpositions
    · obtain rfl := Option.some.inj hstep
      refine ⟨.child c, hcalm.stay rfl rfl rfl (hcalm.status c) hcalm.fatal hcalm.last
        ⟨hpositions, ?_, hturns⟩⟩
      change s.out + i + (s.count - i) = s.sz
      omega
  | posting =>
    rw [hphase] at hstep hstage
    obtain rfl := Option.some.inj hstep
    exact ⟨.flag n, hcalm.hand (.inl rfl) (.inr ⟨rfl, hstage⟩)⟩
  | passing =>
    rw [hphase] at hstep hstage
    obtain rfl := Option.some.inj hstep
    exact ⟨.flag ((c + 1) % n),
      hcalm.hand (.inr rfl) (.inl ⟨Nat.mod_lt _ (Nat.zero_lt_of_lt hc), hstage⟩)⟩
  | _ =>
    rw [hphase] at hstage
    exact hstage.elim

theorem Calm.start (hcalm : s.Calm n owner) (hphase : (s.children c).phase = .starting) :
    (s.goto c .waiting).Calm n owner := by
  refine ⟨hcalm.flags, ?_, ?_, hcalm.fatal, hcalm.last, ?_⟩
  · intro k hk howner
    unfold Resting goto
    dsimp only
    obtain rfl | hne := eq_or_ne k c
    · rw [update_self]
      exact .inr (.inl rfl)
    · rw [update_of_ne hne]
      exact hcalm.resting k hk howner
  · exact status_update hcalm.status (hcalm.status c)
  · refine hcalm.progress.congr rfl rfl rfl rfl rfl fun k howner ↦ update_of_ne ?_ _ _
    rintro rfl
    obtain rfl := howner
    obtain ⟨-, -, hstage⟩ := hcalm.progress
    rw [hphase] at hstage
    exact hstage

theorem Calm.owner_eq_main (hcalm : s.Calm n owner) (hmain : s.main ≠ .waiting) :
    owner = .main := by
  cases owner with
  | main => rfl
  | flag i => exact absurd hcalm.progress.1 hmain
  | child c => exact absurd hcalm.progress.1 hmain

theorem Calm.request (hcalm : s.Calm n owner) (hidle : s.main = .idle) (sz : ℕ) :
    ({ s with main := .stored, sz := sz, count := sz, out := 0, turns := [] } :
    Cores).Calm n .main := by
  obtain rfl := hcalm.owner_eq_main (by simp [hidle])
  exact ⟨hcalm.flags, hcalm.resting, hcalm.status, hcalm.fatal, hcalm.last, rfl, rfl, rfl⟩

theorem Calm.mainStep (hcalm : s.Calm n owner) (hstep : s.mainStep n = some s') :
    (∃ owner', s'.Calm n owner') ∧
      (s'.requests = s.requests ∨ ∃ request : RngCall, s'.requests = s.requests ++ [request] ∧
      request.Complete n) := by
  unfold Cores.mainStep at hstep
  cases hmain : s.main with
  | idle =>
    rw [hmain] at hstep
    exact absurd hstep (by simp)
  | stored =>
    obtain rfl := hcalm.owner_eq_main (by simp [hmain])
    have hprogress := hcalm.progress
    unfold Progress at hprogress
    rw [hmain] at hstep hprogress
    obtain ⟨hturns, hout, hcount⟩ := hprogress
    obtain rfl := Option.some.inj hstep
    refine ⟨⟨.flag s.last, ?_, fun k hk _ ↦
      hcalm.resting k hk (by simp), hcalm.status, hcalm.fatal, hcalm.last, rfl,
      .inl ⟨hcalm.last, ?_, ?_, ?_⟩⟩, .inl rfl⟩
    · exact flags_posted hcalm (by simp) s.last
    · change positions s.turns = List.range s.out
      rw [hturns, hout]
      rfl
    · change s.out + s.count = s.sz
      rw [hout, hcount, Nat.zero_add]
    · change InTurn n (s.turns ++ [⟨s.last, []⟩])
      rw [hturns]
      exact List.isChain_singleton _
  | waiting =>
    rw [hmain] at hstep
    dsimp only at hstep
    split_ifs at hstep with hposted
    obtain rfl := Option.some.inj hstep
    -- the token was in the completion semaphore
    obtain rfl := hcalm.owner_eq_flag hposted
    refine ⟨⟨.main, ?_, fun k hk _ ↦
      hcalm.resting k hk (by simp), hcalm.status, hcalm.fatal, hcalm.last, ?_⟩, .inl rfl⟩
    · intro k
      rw [if_neg (by simp)]
      exact flags_taken hcalm k
    · obtain ⟨-, ⟨hlt, -⟩ | ⟨-, hwritten⟩⟩ := hcalm.progress
      · exact absurd hlt (lt_irrefl n)
      · exact hwritten
  | woken =>
    obtain rfl := hcalm.owner_eq_main (by simp [hmain])
    have hprogress := hcalm.progress
    unfold Progress at hprogress
    rw [hmain] at hstep hprogress
    obtain rfl := Option.some.inj hstep
    exact ⟨⟨.main, hcalm.flags, hcalm.resting, hcalm.status, hcalm.fatal, hcalm.last, trivial⟩,
      .inr ⟨_, rfl, hprogress.1, hprogress.2⟩⟩

end Token

/-! ### All runs -/

section Runs

variable {n : ℕ} {s s' : Cores}

theorem Broken.mainStep (hbroken : s.Broken n) (hstep : s.mainStep n = some s') :
    s'.Broken n ∧
      (s'.requests = s.requests ∨ ∃ request : RngCall, s'.requests = s.requests ++ [request] ∧
      request.error ≠ .noErr) := by
  obtain ⟨hfatal, c, hc, hdoomed⟩ := hbroken
  unfold Cores.mainStep at hstep
  cases hmain : s.main with
  | idle =>
    rw [hmain] at hstep
    exact absurd hstep (by simp)
  | stored =>
    rw [hmain] at hstep
    obtain rfl := Option.some.inj hstep
    exact ⟨⟨hfatal, c, hc, hdoomed.mono rfl (flags_le_post s s.last c)⟩, .inl rfl⟩
  | waiting =>
    rw [hmain] at hstep
    dsimp only at hstep
    split_ifs at hstep
    obtain rfl := Option.some.inj hstep
    exact ⟨⟨hfatal, c, hc, hdoomed.mono rfl (update_of_ne hc.ne _ _).ge⟩, .inl rfl⟩
  | woken =>
    rw [hmain] at hstep
    obtain rfl := Option.some.inj hstep
    have hset : s.fatal ≠ .noErr := fun heq ↦ hfatal (.inl heq)
    refine ⟨⟨hfatal, c, hc, hdoomed.mono rfl le_rfl⟩, .inr ⟨_, rfl, ?_⟩⟩
    simp only [if_pos hset]
    exact hset

structure Inv (n : ℕ) (s : Cores) : Prop where
  complete : ∀ request ∈ s.requests, request.error = .noErr → request.Complete n
  state : (∃ owner, s.Calm n owner) ∨ s.Broken n

theorem Inv.begin (hn : 0 < n) : Cores.begin.Inv n := by
  refine ⟨by simp [Cores.begin], .inl ⟨.main, fun i ↦ ?_, fun c _ _ ↦ .inl rfl, fun c ↦
    .inl rfl, .inl rfl, hn, trivial⟩⟩
  rw [if_neg (by simp)]
  rfl

theorem Inv.start {c : ℕ} (hinv : s.Inv n) (hc : c < n)
    (hphase : (s.children c).phase = .starting) :
    (s.goto c .waiting).Inv n ∧ ({ s with fatal := .noTestTot }.goto c .failed).Inv n := by
  refine ⟨⟨hinv.complete, ?_⟩, hinv.complete, .inr ⟨by simp [goto, HErr.Online], c, hc, ?_⟩⟩
  · obtain ⟨owner, hcalm⟩ | ⟨hfatal, k, hk, hdoomed⟩ := hinv.state
    · exact .inl ⟨owner, hcalm.start hphase⟩
    · refine .inr ⟨hfatal, k, hk, hdoomed.mono (update_of_ne ?_ _ _) le_rfl⟩
      rintro rfl
      unfold Doomed at hdoomed
      rw [hphase] at hdoomed
      exact hdoomed
  · unfold Doomed goto
    dsimp only
    rw [update_self]
    trivial

theorem Inv.child {c : ℕ} (hinv : s.Inv n) (hc : c < n)
    (hheeded : ErrorsHeeded s (.child c rounds)) (hstep : s.childStep n c rounds = some s') :
    s'.Inv n := by
  refine ⟨(childEffect_of_childStep hstep).requests ▸ hinv.complete, ?_⟩
  obtain ⟨owner, hcalm⟩ | hbroken := hinv.state
  · left
    by_cases howner : owner = .child c
    · subst howner
      exact hcalm.turn hheeded hstep
    · exact hcalm.rest hc howner hstep
  · exact .inr (hbroken.child hc hheeded hstep)

theorem Inv.mainStep (hinv : s.Inv n) (hstep : s.mainStep n = some s') : s'.Inv n := by
  obtain ⟨owner, hcalm⟩ | hbroken := hinv.state
  · obtain ⟨hcalm', hsame | ⟨request, hadded, hcomplete⟩⟩ := hcalm.mainStep hstep
    · exact ⟨hsame ▸ hinv.complete, .inl hcalm'⟩
    · refine ⟨?_, .inl hcalm'⟩
      rw [hadded, List.forall_mem_append]
      exact ⟨hinv.complete, by simpa using fun _ ↦ hcomplete⟩
  · obtain ⟨hbroken', hsame | ⟨request, hadded, hfailed⟩⟩ := hbroken.mainStep hstep
    · exact ⟨hsame ▸ hinv.complete, .inr hbroken'⟩
    · refine ⟨?_, .inr hbroken'⟩
      rw [hadded, List.forall_mem_append]
      exact ⟨hinv.complete, by simpa using fun hnone ↦ absurd hnone hfailed⟩

theorem Inv.next {event : CoresEvent} (hinv : s.Inv n) (hheeded : ErrorsHeeded s event)
    (hnext : s.next n event = some s') : s'.Inv n := by
  cases event with
  | start c passed =>
    dsimp only [Cores.next] at hnext
    by_cases hstart : c < n ∧ (s.children c).phase = .starting
    · rw [if_pos hstart] at hnext
      cases passed with
      | true =>
        obtain rfl := Option.some.inj hnext
        exact (hinv.start hstart.1 hstart.2).1
      | false =>
        obtain rfl := Option.some.inj hnext
        exact (hinv.start hstart.1 hstart.2).2
    · rw [if_neg hstart] at hnext
      exact absurd hnext (by simp)
  | child c rounds =>
    dsimp only [Cores.next] at hnext
    split_ifs at hnext with hc
    exact hinv.child hc hheeded hnext
  | request sz =>
    dsimp only [Cores.next] at hnext
    split_ifs at hnext with hidle
    obtain rfl := Option.some.inj hnext
    refine ⟨hinv.complete, ?_⟩
    obtain ⟨owner, hcalm⟩ | ⟨hfatal, c, hc, hdoomed⟩ := hinv.state
    · exact .inl ⟨.main, hcalm.request hidle sz⟩
    · exact .inr ⟨hfatal, c, hc, hdoomed.mono rfl le_rfl⟩
  | main => exact hinv.mainStep hnext

theorem Inv.safe (hinv : s.Inv n) : s.Safe n := by
  refine ⟨hinv.complete, ?_⟩
  obtain ⟨owner, hcalm⟩ | hbroken := hinv.state
  · exact hcalm.not_hangs
  · exact hbroken.not_hangs

end Runs

end Cores

/-- In every run in which no collector takes the token after a reported failure and none reports
over a failure, requests that succeed are complete and the main process does not hang. -/
theorem safe_of_reachable (cores : ℕ) {s : Cores}
    (hreach : Reachable (coresSystem cores) ErrorsHeeded s) : s.Safe (nCores cores) := by
  refine Cores.Inv.safe (hreach.invariant (Cores.Inv (nCores cores)) ?_ ?_)
  · rintro _ rfl
    exact Cores.Inv.begin (nCores_pos cores)
  · intro state event following _ hinv hheeded hstep
    exact hinv.next hheeded hstep

def twoWords (failed : Bool) : List Round := [⟨[1, 2], failed, false⟩]

/-- A child takes the token with an empty buffer, passes it on and fills the buffer. -/
def emptyTurn (c : ℕ) (failed : Bool) : List CoresEvent := List.replicate 5 (.child c []) ++
    [.child c (twoWords failed)]

/-- A child takes the token and reads the two words that it has, the other has to go on, and the
buffer is filled again. -/
def fullTurn (c : ℕ) : List CoresEvent := List.replicate 7 (.child c []) ++
    [.child c (twoWords false)]

/-- Two collectors start, and so many words are asked for; they fill their buffers, and the first
one writes two words. -/
def firstWords (sz : ℕ) (failed : Bool) : List CoresEvent :=
  [.start 0 true, .start 1 true, .request sz, .main] ++ emptyTurn 0 failed ++ emptyTurn 1 false ++
    fullTurn 0

/-- Three words: the second collector writes the last one. -/
theorem safe_threeWords :
    ∃ s, Reachable (coresSystem 2) ErrorsHeeded s ∧
      s.requests.map (fun request ↦ (request.sz, request.error)) = [(3, .noErr)] ∧ s.Safe 2 := by
  have hrun : (runSteps (guardStep ErrorsHeeded (Cores.next (nCores 2))) .begin
      (firstWords 3 false ++ List.replicate 6 (.child 1 []) ++ [.main, .main])).any
      (fun s ↦ decide (s.requests.map (fun request ↦ (request.sz, request.error)) =
        [(3, .noErr)])) = true := by
    decide +kernel
  obtain ⟨s, hreach, htest⟩ := @exists_reachable_of_runSteps _ _ (· = .begin) _ _ rfl _ _ hrun
  exact ⟨s, hreach.of_guardStep, by simpa using htest, safe_of_reachable 2 hreach.of_guardStep⟩

/-- A fill of the first collector fails its tests. It reports this in its next turn and passes the
token on, and the second collector exits: the main process waits for a completion that nobody will
post. -/
theorem failedTest_hangs :
    ¬ ∀ cores s, Reachable (coresSystem cores) (fun _ _ ↦ True) s → s.Safe (nCores cores) := by
  intro hall
  have hrun : (runSteps (Cores.next (nCores 2)) .begin
      (firstWords 4 true ++ List.replicate 2 (.child 1 []))).any (fun s ↦ decide (s.Hangs 2)) =
        true := by
    decide +kernel
  obtain ⟨s, hreach, htest⟩ := @exists_reachable_of_runSteps _ _ (· = .begin) _ _ rfl _ _ hrun
  exact (hall 2 s hreach).live (of_decide_eq_true htest)

end CrossBreeder.Haveged
