import Mathlib.Data.List.Basic

/-!
# What a script is told about leases

`do_script_run` queues one event and returns 1, or 0 if there is nothing to tell. `pendingEvents` is
what the leases say is to be told, and `runScripts_eq` says that calls until one returns 0 tell
exactly that: leases that ended before names that were lost, and these before new or changed leases.
-/

namespace CrossBreeder.Dnsmasq

inductive ScriptAction
  | oldHostname | del | add | old

/-- A call of `queue_script`. -/
structure ScriptEvent where
  action : ScriptAction
  number : ℕ
  name : Option (List UInt8)

/-- A lease with `LEASE_NEW`, `LEASE_CHANGED` and `LEASE_AUX_CHANGED`, and its names. -/
structure ScriptLease where
  number : ℕ
  isNew : Bool
  changed : Bool
  auxChanged : Bool
  hostname : Option (List UInt8)
  fqdn : Option (List UInt8)
  oldHostname : Option (List UInt8)

structure ScriptLeases where
  leases : List ScriptLease
  oldLeases : List ScriptLease

namespace ScriptLease

def lost (lease : ScriptLease) : Option ScriptEvent := lease.oldHostname.map fun name ↦
    ⟨.oldHostname, lease.number, name⟩

def lostTold (lease : ScriptLease) : ScriptLease := { lease with oldHostname := none }

/-- The end of a lease, with the name that `kill_name` leaves. -/
def ended (lease : ScriptLease) : ScriptEvent := ⟨.del, lease.number, lease.fqdn.or lease.hostname⟩

/-- What is new about a lease, with `OPT_LEASE_RO`. -/
def news (leaseRo : Bool) (lease : ScriptLease) : Option ScriptEvent :=
  if lease.isNew ∨ lease.changed ∨ lease.auxChanged ∧ leaseRo then
    some ⟨if lease.isNew then .add else .old, lease.number, lease.fqdn.or lease.hostname⟩
  else none

def newsTold (lease : ScriptLease) : ScriptLease :=
  { lease with isNew := false, changed := false, auxChanged := false }

end ScriptLease

open ScriptLease

/-- The first lease with something to tell, and the leases when it is told. -/
def tellFirst (tell : ScriptLease → Option ScriptEvent) (told : ScriptLease → ScriptLease) :
    List ScriptLease → Option (ScriptEvent × List ScriptLease)
  | [] => none
  | lease :: rest => match tell lease with
    | some event => some (event, told lease :: rest)
    | none => (tellFirst tell told rest).map fun next ↦ (next.1, lease :: next.2)

/-- `do_script_run`, or nothing if it returns 0. -/
def doScriptRun (leaseRo : Bool) (s : ScriptLeases) : Option (ScriptEvent × ScriptLeases) :=
  match s.oldLeases with
  | lease :: rest => match lease.lost with
    | some event => some (event, { s with oldLeases := lease.lostTold :: rest })
    | none => some (lease.ended, { s with oldLeases := rest })
  | [] => ((tellFirst lost lostTold s.leases).or (tellFirst (news leaseRo) newsTold s.leases)).map
    fun next ↦
      (next.1, { s with leases := next.2 })

/-- `while (do_script_run(now));` with its events. -/
def runScripts (leaseRo : Bool) : ℕ → ScriptLeases → List ScriptEvent × ScriptLeases
  | 0, s => ([], s)
  | fuel + 1, s => (doScriptRun leaseRo s).elim ([], s) fun next ↦
      (next.1 :: (runScripts leaseRo fuel next.2).1, (runScripts leaseRo fuel next.2).2)

def pendingEvents (leaseRo : Bool) (s : ScriptLeases) : List ScriptEvent :=
  s.oldLeases.flatMap (fun lease ↦ lease.lost.toList ++ [lease.ended]) ++ s.leases.filterMap lost ++
    s.leases.filterMap (news leaseRo)

/-- One event is told, and nothing else changes. -/
theorem tellFirst_spec {tell : ScriptLease → Option ScriptEvent} {told : ScriptLease → ScriptLease}
    (htold : ∀ lease, tell (told lease) = none) (other : ScriptLease → Option ScriptEvent)
    (hother : ∀ lease, other (told lease) = other lease) (leases : List ScriptLease) :
    leases.filterMap tell =
      (tellFirst tell told leases).elim [] (fun next ↦ next.1 :: next.2.filterMap tell) ∧
      ∀ next ∈ tellFirst tell told leases, next.2.filterMap other = leases.filterMap other := by
  induction leases with
  | nil => exact ⟨rfl, fun _ h ↦ nomatch h⟩
  | cons lease rest ih =>
    unfold tellFirst
    cases htell : tell lease with
    | some event => simp [htell, htold, List.filterMap_cons, hother]
    | none =>
      cases hrest : tellFirst tell told rest with
      | none => simpa [hrest, htell] using ih.1
      | some next =>
        rw [hrest] at ih
        simp [htell, List.filterMap_cons, ih.1, ih.2 next rfl]

theorem doScriptRun_pending (leaseRo : Bool) (s : ScriptLeases) :
    pendingEvents leaseRo s =
      (doScriptRun leaseRo s).elim [] fun next ↦ next.1 :: pendingEvents leaseRo next.2 := by
  obtain ⟨leases, oldLeases⟩ := s
  unfold doScriptRun pendingEvents
  cases oldLeases with
  | cons lease rest =>
    cases hlost : lease.lost with
    | some event => simp [hlost, show lease.lostTold.lost = none from rfl,
      show lease.lostTold.ended = lease.ended from rfl]
    | none => simp [hlost]
  | nil =>
    obtain ⟨hlost, hnewsKept⟩ :=
      tellFirst_spec (fun _ ↦ rfl : ∀ lease, lost (lostTold lease) = none) (news leaseRo)
        (fun _ ↦ rfl) leases
    obtain ⟨hnews, hlostKept⟩ :=
      tellFirst_spec (fun _ ↦ rfl : ∀ lease, news leaseRo (newsTold lease) = none) lost
        (fun _ ↦ rfl) leases
    cases hfirst : tellFirst lost lostTold leases with
    | some next => simp [hlost, hfirst, hnewsKept next hfirst]
    | none =>
      cases hsecond : tellFirst (news leaseRo) newsTold leases with
      | some next => simp [hlost, hnews, hfirst, hsecond, hlostKept next hsecond]
      | none => simp [hlost, hnews, hfirst, hsecond]

/-- The calls come to an end, and tell what was to be told, each thing once and in this order. -/
theorem runScripts_eq (leaseRo : Bool) (s : ScriptLeases) (more : ℕ) :
    let run := runScripts leaseRo ((pendingEvents leaseRo s).length + more + 1) s
    run.1 = pendingEvents leaseRo s ∧ doScriptRun leaseRo run.2 = none := by
  generalize hpending : pendingEvents leaseRo s = pending
  induction pending generalizing s with
  | nil =>
    rw [doScriptRun_pending] at hpending
    cases hrun : doScriptRun leaseRo s with
    | none => simp [runScripts, hrun]
    | some next => simp [hrun] at hpending
  | cons event pending ih =>
    rw [doScriptRun_pending] at hpending
    cases hrun : doScriptRun leaseRo s with
    | none => simp [hrun] at hpending
    | some next =>
      rw [hrun] at hpending
      obtain ⟨rfl, hrest⟩ := List.cons.inj hpending
      obtain ⟨htold, hdone⟩ := ih next.2 hrest
      rw [Nat.add_right_comm] at htold hdone
      simp only [List.length_cons, runScripts, hrun, Option.elim_some]
      exact ⟨congrArg (next.1 :: ·) htold, hdone⟩

end CrossBreeder.Dnsmasq
