import CrossBreeder.Foundation.InPlace
import CrossBreeder.Dnsmasq.DhcpAddresses

/-!
# Which options the tags allow

`option_filter` flags options in three passes: those whose tags the client has, then those whose
tags are met with the tags of the range, where no option of the number is flagged yet, and last
those without tags, again where no option of the number is flagged. `optionFilter_precedence` says
what the flags are like afterwards, for any tags and rules.
-/

namespace CrossBreeder.Dnsmasq

open Foundation

/-! ### The passes -/

/-- `struct dhcp_opt` with what `option_filter` reads and writes. -/
structure DhcpOpt where
  opt : ℕ
  encapsulate : Bool
  vendor : Bool
  rfc3925 : Bool
  tagOk : Bool
  netid : List Tag
  deriving DecidableEq, Repr

namespace DhcpOpt

def plain (o : DhcpOpt) : Bool := !(o.encapsulate || o.vendor || o.rfc3925)

def bare (o : DhcpOpt) : DhcpOpt := { o with tagOk := false }

def meets (o : DhcpOpt) (tagif : List Tag) : Bool := matchNetid o.netid tagif false

end DhcpOpt

def flagClient (tagif : List Tag) (opt : DhcpOpt) : DhcpOpt :=
  { opt with tagOk := opt.plain && opt.meets tagif }

/-- The second pass, first part: a tag that must not be set is set now. -/
def resetStale (tagif : List Tag) (opt : DhcpOpt) : DhcpOpt :=
  if opt.plain && opt.tagOk && !opt.meets tagif then { opt with tagOk := false } else opt

/-- The second pass, second part. -/
def flagContext (tagif : List Tag) (s : Unit) (done : List DhcpOpt) (opt : DhcpOpt)
    (rest : List DhcpOpt) : Unit × DhcpOpt :=
  if opt.plain && !opt.tagOk && opt.meets tagif then
    match (done ++ opt :: rest).find? fun tmp ↦ tmp.opt = opt.opt && opt.netid ≠ [] &&
      tmp.tagOk with
    | none => (s, { opt with tagOk := true })
    | some _ => (s, opt)
  else (s, opt)

/-- The third pass. The state is the numbers that a warning is logged for. -/
def flagUntagged (ignored : List ℕ) (done : List DhcpOpt) (opt : DhcpOpt) (rest : List DhcpOpt) :
    List ℕ × DhcpOpt :=
  if opt.plain && !opt.tagOk && opt.netid = [] then
    match (done ++ opt :: rest).find? fun tmp ↦ tmp.opt = opt.opt && tmp.tagOk with
    | none => (ignored, { opt with tagOk := true })
    | some tmp => (if tmp.netid = [] then ignored ++ [tmp.opt] else ignored, opt)
  else (ignored, opt)

/-- The tags and the options after the second pass. -/
def filterTagged (exprs : List (List Tag × List Tag)) (tags contextTags : List Tag)
    (opts : List DhcpOpt) : List Tag × List DhcpOpt :=
  let flagged := opts.map (flagClient (runTagIf exprs tags))
  if contextTags = [] then (runTagIf exprs tags, flagged)
  else
    let tagif := runTagIf exprs (contextTags ++ tags)
    (tagif, (visitEach (flagContext tagif) () [] (flagged.map (resetStale tagif))).2)

/-- `option_filter`: the final tags, the options, and the numbers of duplicates. -/
def optionFilter (exprs : List (List Tag × List Tag)) (tags contextTags : List Tag)
    (opts : List DhcpOpt) : List Tag × List DhcpOpt × List ℕ :=
  let (tagif, opts) := filterTagged exprs tags contextTags opts
  let (ignored, opts) := visitEach flagUntagged [] [] opts
  (tagif, opts, ignored)

/-! ### What the flags mean -/

/-- The flags follow the tags: `client` are the tags of the client, `final` all of them, and `rival`
the options that an option which needs more than the tags of the client gives way to. -/
structure TagPrecedence (client final : List Tag) (rival : DhcpOpt → Prop)
    (opts result : List DhcpOpt) : Prop where
  same : result.map DhcpOpt.bare = opts.map DhcpOpt.bare
  meets : ∀ o ∈ result, o.tagOk = true → o.netid ≠ [] → o.meets final = true
  /-- Of two flagged options of a number both have tags. -/
  alone : (result.filter DhcpOpt.tagOk).Pairwise fun o p ↦ o.opt = p.opt →
    o.netid ≠ [] ∧ p.netid ≠ []
  client : ∀ o ∈ result, o.tagOk = true → o.netid ≠ [] → o.meets client = false →
    ∀ p ∈ result, rival p → p.opt = o.opt → ¬ (p.meets client = true ∧ p.meets final = true)
  present : ∀ o ∈ result, o.plain = true → o.meets final = true ∨ o.netid = [] →
    ∃ p ∈ result, p.opt = o.opt ∧ p.tagOk = true

/-! ### One visit -/

variable {client final : List Tag} {opts done rest : List DhcpOpt} {opt opt' : DhcpOpt}

/-- What a visit does with an option that `eligible` holds for: it is flagged if no option of the
number is. -/
def Visited (eligible : DhcpOpt → Prop) (done : List DhcpOpt) (opt : DhcpOpt) (rest : List DhcpOpt)
    (opt' : DhcpOpt) : Prop :=
  opt' = opt ∧ (eligible opt → ∃ p ∈ done ++ opt :: rest, p.opt = opt.opt ∧ p.tagOk = true) ∨
    opt' = { opt with tagOk := true } ∧ eligible opt ∧ opt.tagOk = false ∧
      ∀ p ∈ done ++ opt :: rest, p.opt = opt.opt → p.tagOk = false

theorem netid_of_meets {tagif : List Tag} (hmeets : opt.meets tagif = true) : opt.netid ≠ [] := by
  intro hnil
  simp [DhcpOpt.meets, matchNetid, hnil] at hmeets

theorem congr_bare {o p : DhcpOpt} (hbare : o.bare = p.bare) :
    p.opt = o.opt ∧ p.netid = o.netid ∧ p.plain = o.plain ∧
      ∀ tagif, p.meets tagif = o.meets tagif := by
  have hparts : ∀ {β : Type} (part : DhcpOpt → β), part p.bare = part o.bare :=
    fun part ↦ by rw [hbare]
  exact ⟨hparts DhcpOpt.opt, hparts DhcpOpt.netid, hparts DhcpOpt.plain, fun tagif ↦
    hparts (DhcpOpt.meets · tagif)⟩

theorem flagContext_visited (tagif : List Tag) (s : Unit) (done : List DhcpOpt) (opt : DhcpOpt)
    (rest : List DhcpOpt) :
    Visited (fun o ↦ o.plain = true ∧ o.meets tagif = true) done opt rest
      (flagContext tagif s done opt rest).2 := by
  unfold flagContext
  split_ifs with hopen
  · simp only [Bool.and_eq_true, Bool.not_eq_true'] at hopen
    obtain ⟨⟨hplain, hunflagged⟩, hmeets⟩ := hopen
    have hnetid := netid_of_meets hmeets
    split
    · rename_i hnone
      refine .inr ⟨rfl, ⟨hplain, hmeets⟩, hunflagged, fun p hp hsame ↦ ?_⟩
      simpa [hsame, hnetid] using List.find?_eq_none.mp hnone p hp
    · rename_i tmp hsome
      have htest := List.find?_some hsome
      simp only [Bool.and_eq_true, decide_eq_true_eq] at htest
      exact .inl ⟨rfl, fun _ ↦ ⟨tmp, List.mem_of_find?_eq_some hsome, htest.1.1, htest.2⟩⟩
  · refine .inl ⟨rfl, fun ⟨hplain, hmeets⟩ ↦ ⟨opt, by simp, rfl, ?_⟩⟩
    simpa [hplain, hmeets] using hopen

theorem flagUntagged_visited (ignored : List ℕ) (done : List DhcpOpt) (opt : DhcpOpt)
    (rest : List DhcpOpt) :
    Visited (fun o ↦ o.plain = true ∧ o.netid = []) done opt rest
      (flagUntagged ignored done opt rest).2 := by
  unfold flagUntagged
  split_ifs with hopen
  · simp only [Bool.and_eq_true, Bool.not_eq_true', decide_eq_true_eq] at hopen
    obtain ⟨⟨hplain, hunflagged⟩, hnetid⟩ := hopen
    split
    · rename_i hnone
      refine .inr ⟨rfl, ⟨hplain, hnetid⟩, hunflagged, fun p hp hsame ↦ ?_⟩
      simpa [hsame] using List.find?_eq_none.mp hnone p hp
    · rename_i tmp hsome
      have htest := List.find?_some hsome
      simp only [Bool.and_eq_true, decide_eq_true_eq] at htest
      exact .inl ⟨rfl, fun _ ↦ ⟨tmp, List.mem_of_find?_eq_some hsome, htest⟩⟩
  · refine .inl ⟨rfl, fun ⟨hplain, hnetid⟩ ↦ ⟨opt, by simp, rfl, ?_⟩⟩
    simpa [hplain, hnetid] using hopen

namespace Visited

variable {eligible : DhcpOpt → Prop}

theorem bare (hvisited : Visited eligible done opt rest opt') : opt'.bare = opt.bare := by
  rcases hvisited with ⟨rfl, -⟩ | ⟨rfl, -⟩
  · rfl
  · rfl

theorem before (hvisited : Visited eligible done opt rest opt') {o : DhcpOpt}
    (hmem : o ∈ done ++ [opt'] ++ rest) : ∃ p ∈ done ++ opt :: rest, o.bare = p.bare := by
  simp only [List.mem_append, List.mem_singleton] at hmem
  rcases hmem with (hdone | rfl) | hrest
  · exact ⟨o, by simp [hdone], rfl⟩
  · exact ⟨opt, by simp, hvisited.bare⟩
  · exact ⟨o, by simp [hrest], rfl⟩

theorem flagged_before (hvisited : Visited eligible done opt rest opt') {o : DhcpOpt}
    (hmem : o ∈ done ++ [opt'] ++ rest) :
    o ∈ done ++ opt :: rest ∨
      o = { opt with tagOk := true } ∧ eligible opt ∧ ∀ p ∈ done ++ opt :: rest, p.opt = opt.opt →
    p.tagOk = false := by
  rcases hvisited with ⟨rfl, -⟩ | ⟨rfl, heligible, -, hnone⟩
  · exact .inl (by simpa using hmem)
  · simp only [List.mem_append, List.mem_singleton] at hmem
    rcases hmem with (hdone | rfl) | hrest
    · exact .inl (by simp [hdone])
    · exact .inr ⟨rfl, heligible, hnone⟩
    · exact .inl (by simp [hrest])

theorem flagged (hvisited : Visited eligible done opt rest opt') {p : DhcpOpt}
    (hmem : p ∈ done ++ opt :: rest) (hflagged : p.tagOk = true) : p ∈ done ++ [opt'] ++ rest := by
  rcases List.mem_append.mp hmem with hdone | htail
  · simp [hdone]
  · rcases List.mem_cons.mp htail with rfl | hrest
    · rcases hvisited with ⟨rfl, -⟩ | ⟨-, -, hunflagged, -⟩
      · simp
      · exact absurd (hflagged.symm.trans hunflagged) (by decide)
    · simp [hrest]

theorem keeps (hvisited : Visited eligible done opt rest opt') {number : ℕ}
    (hsome : ∃ p ∈ done ++ opt :: rest, p.opt = number ∧ p.tagOk = true) :
    ∃ p ∈ done ++ [opt'] ++ rest, p.opt = number ∧ p.tagOk = true := by
  obtain ⟨p, hp, hsame, hflagged⟩ := hsome
  exact ⟨p, hvisited.flagged hp hflagged, hsame, hflagged⟩

theorem present (hvisited : Visited eligible done opt rest opt') (heligible : eligible opt) :
    ∃ p ∈ done ++ [opt'] ++ rest, p.opt = opt.opt ∧ p.tagOk = true := by
  rcases id hvisited with ⟨-, hsome⟩ | ⟨rfl, -⟩
  · exact hvisited.keeps (hsome heligible)
  · exact ⟨{ opt with tagOk := true }, by simp, rfl, rfl⟩

end Visited

/-! ### The tagged options -/

/-- The second pass as it goes on, with the options behind it in `done`. -/
structure TaggedSoFar (client final : List Tag) (done rest : List DhcpOpt) : Prop where
  flagged : ∀ o ∈ done ++ rest, o.tagOk = true → o.plain = true ∧ o.meets final = true
  clients : ∀ o ∈ done ++ rest, o.plain = true → o.meets client = true → o.meets final = true →
    o.tagOk = true
  context : ∀ o ∈ done ++ rest, o.tagOk = true → o.meets client = false →
    ∀ p ∈ done ++ rest, p.plain = true → p.opt = o.opt →
      ¬ (p.meets client = true ∧ p.meets final = true)
  present : ∀ o ∈ done, o.plain = true → o.meets final = true → ∃ p ∈ done ++ rest, p.opt = o.opt ∧
    p.tagOk = true

theorem TaggedSoFar.step (h : TaggedSoFar client final done (opt :: rest))
    (hvisited : Visited (fun o ↦ o.plain = true ∧ o.meets final = true) done opt rest opt') :
    TaggedSoFar client final (done ++ [opt']) rest := by
  refine ⟨fun o hmem hflagged ↦ ?_, fun o hmem hplain hclient hfinal ↦
    ?_, fun o hmem hflagged hclient p hp hplain hsame ↦ ?_, fun o hmem hplain hfinal ↦ ?_⟩
  · rcases hvisited.flagged_before hmem with hold | ⟨rfl, heligible, -⟩
    · exact h.flagged o hold hflagged
    · exact heligible
  · rcases hvisited.flagged_before hmem with hold | ⟨rfl, -⟩
    · exact h.clients o hold hplain hclient hfinal
    · rfl
  · obtain ⟨q, hq, hbare⟩ := hvisited.before hp
    obtain ⟨hqopt, -, hqplain, hqmeets⟩ := congr_bare hbare
    rw [← hqmeets, ← hqmeets]
    rcases hvisited.flagged_before hmem with hold | ⟨rfl, -, hnone⟩
    · exact h.context o hold hflagged hclient q hq (hqplain.trans hplain) (hqopt.trans hsame)
    -- an option that matches the tags of the client would be flagged already
    · rintro ⟨hqclient, hqfinal⟩
      have hqflagged := h.clients q hq (hqplain.trans hplain) hqclient hqfinal
      exact absurd (hqflagged.symm.trans (hnone q hq (hqopt.trans hsame))) (by decide)
  · rcases List.mem_append.mp hmem with hdone | hnew
    · exact hvisited.keeps (h.present o hdone hplain hfinal)
    · obtain rfl := List.mem_singleton.mp hnew
      obtain ⟨hopt, -, hoplain, homeets⟩ := congr_bare hvisited.bare
      rw [← hopt]
      exact hvisited.present ⟨hoplain.trans hplain, (homeets final).trans hfinal⟩

theorem filterTagged_spec (exprs : List (List Tag × List Tag)) (tags contextTags : List Tag)
    (opts : List DhcpOpt) :
    TaggedSoFar (runTagIf exprs tags) (filterTagged exprs tags contextTags opts).1
      (filterTagged exprs tags contextTags opts).2 [] := by
  have hfirst : ∀ o ∈ opts.map (flagClient (runTagIf exprs tags)),
      o.tagOk = true ↔ o.plain = true ∧ o.meets (runTagIf exprs tags) = true := by
    intro o hmem
    obtain ⟨opt, -, rfl⟩ := List.mem_map.mp hmem
    exact Bool.and_eq_true_iff
  unfold filterTagged
  split_ifs with hnone
  · refine ⟨fun o hmem ↦ (hfirst o (by simpa using hmem)).mp, fun o hmem hplain hclient _ ↦ ?_,
      fun o hmem hflagged hclient ↦ ?_, fun o hmem hplain hmeets ↦ ?_⟩
    · exact (hfirst o (by simpa using hmem)).mpr ⟨hplain, hclient⟩
    · have hmeets := ((hfirst o (by simpa using hmem)).mp hflagged).2
      exact absurd (hmeets.symm.trans hclient) (by decide)
    · exact ⟨o, by simpa using hmem, rfl, (hfirst o hmem).mpr ⟨hplain, hmeets⟩⟩
  · have hreset : ∀ o ∈ (opts.map (flagClient (runTagIf exprs tags))).map
        (resetStale (runTagIf exprs (contextTags ++ tags))),
        o.tagOk = true ↔ o.plain = true ∧ o.meets (runTagIf exprs tags) = true ∧
          o.meets (runTagIf exprs (contextTags ++ tags)) = true := by
      intro o hmem
      obtain ⟨opt, hopt, rfl⟩ := List.mem_map.mp hmem
      have hflag := hfirst opt hopt
      unfold resetStale
      split_ifs with hstale
      · simp only [Bool.and_eq_true, Bool.not_eq_true'] at hstale
        exact iff_of_false
          (by simp) fun hmeets ↦ absurd (hmeets.2.2.symm.trans hstale.2) (by decide)
      · rw [hflag, ← and_assoc, iff_self_and]
        rintro ⟨hplain, hclient⟩
        simpa [hplain, hflag.mpr ⟨hplain, hclient⟩] using hstale
    refine visitEach_invariant (fun _ done rest ↦ TaggedSoFar _ _ done rest)
      (fun s done opt rest hsofar ↦ hsofar.step (flagContext_visited _ s done opt rest)) _
        ⟨?_, ?_, ?_, by simp⟩
    · exact fun o hmem hflagged ↦
        ⟨((hreset o hmem).mp hflagged).1, ((hreset o hmem).mp hflagged).2.2⟩
    · exact fun o hmem hplain hclient hfinal ↦ (hreset o hmem).mpr ⟨hplain, hclient, hfinal⟩
    · intro o hmem hflagged hclient
      exact absurd (((hreset o hmem).mp hflagged).2.1.symm.trans hclient) (by decide)

/-! ### All options -/

structure AllSoFar (client final : List Tag) (done rest : List DhcpOpt) : Prop where
  plain : ∀ o ∈ done ++ rest, o.tagOk = true → o.plain = true
  meets : ∀ o ∈ done ++ rest, o.tagOk = true → o.netid ≠ [] → o.meets final = true
  alone : ((done ++ rest).filter DhcpOpt.tagOk).Pairwise fun o p ↦ o.opt = p.opt →
    o.netid ≠ [] ∧ p.netid ≠ []
  context : ∀ o ∈ done ++ rest, o.tagOk = true → o.netid ≠ [] → o.meets client = false →
    ∀ p ∈ done ++ rest, p.plain = true → p.opt = o.opt →
      ¬ (p.meets client = true ∧ p.meets final = true)
  tagged : ∀ o ∈ done ++ rest, o.plain = true → o.meets final = true →
    ∃ p ∈ done ++ rest, p.opt = o.opt ∧ p.tagOk = true
  untagged : ∀ o ∈ done, o.plain = true → o.netid = [] → ∃ p ∈ done ++ rest, p.opt = o.opt ∧
    p.tagOk = true

theorem AllSoFar.step (h : AllSoFar client final done (opt :: rest))
    (hvisited : Visited (fun o ↦ o.plain = true ∧ o.netid = []) done opt rest opt') :
    AllSoFar client final (done ++ [opt']) rest := by
  refine ⟨fun o hmem hflagged ↦ ?_, fun o hmem hflagged hnetid ↦ ?_, ?_,
    fun o hmem hflagged hnetid hclient p hp hplain hsame ↦ ?_, fun o hmem hplain hfinal ↦ ?_,
    fun o hmem hplain hnetid ↦ ?_⟩
  · rcases hvisited.flagged_before hmem with hold | ⟨rfl, ⟨hplain, -⟩, -⟩
    · exact h.plain o hold hflagged
    · exact hplain
  · rcases hvisited.flagged_before hmem with hold | ⟨rfl, ⟨-, hnil⟩, -⟩
    · exact h.meets o hold hflagged hnetid
    · exact absurd hnil hnetid
  · rcases hvisited with ⟨rfl, -⟩ | ⟨rfl, -, hunflagged, hnone⟩
    · simpa using h.alone
    · have hold := h.alone
      have hother : ∀ p ∈ done ++ opt :: rest, p.tagOk = true → p.opt ≠ opt.opt :=
        fun p hp hflagged hsame ↦
        absurd (hflagged.symm.trans (hnone p hp hsame)) (by decide)
      rw [List.filter_append,
        List.filter_cons_of_neg (by simp [hunflagged]), List.pairwise_append] at hold
      rw [List.append_assoc, List.filter_append, List.singleton_append, List.filter_cons_of_pos rfl,
        List.pairwise_append, List.pairwise_cons]
      refine ⟨hold.1, ⟨fun p hp hsame ↦ ?_, hold.2.1⟩, fun o ho p hp ↦ ?_⟩
      · have hp := List.mem_filter.mp hp
        exact absurd hsame.symm (hother p (by simp [hp.1]) hp.2)
      · have hdone := List.mem_filter.mp ho
        rcases List.mem_cons.mp hp with rfl | hrest
        · exact fun hsame ↦ absurd hsame (hother o (by simp [hdone.1]) hdone.2)
        · exact hold.2.2 o ho p hrest
  · obtain ⟨q, hq, hbare⟩ := hvisited.before hp
    obtain ⟨hqopt, -, hqplain, hqmeets⟩ := congr_bare hbare
    rw [← hqmeets, ← hqmeets]
    rcases hvisited.flagged_before hmem with hold | ⟨rfl, ⟨-, hnil⟩, -⟩
    · exact h.context o hold hflagged hnetid hclient q hq (hqplain.trans hplain) (hqopt.trans hsame)
    · exact absurd hnil hnetid
  · obtain ⟨q, hq, hbare⟩ := hvisited.before hmem
    obtain ⟨hqopt, -, hqplain, hqmeets⟩ := congr_bare hbare
    rw [← hqopt]
    exact hvisited.keeps (h.tagged q hq (hqplain.trans hplain) ((hqmeets final).trans hfinal))
  · rcases List.mem_append.mp hmem with hdone | hnew
    · exact hvisited.keeps (h.untagged o hdone hplain hnetid)
    · obtain rfl := List.mem_singleton.mp hnew
      obtain ⟨hopt, hotags, hoplain, -⟩ := congr_bare hvisited.bare
      rw [← hopt]
      exact hvisited.present ⟨hoplain.trans hplain, hotags.trans hnetid⟩

theorem filterTagged_fst (exprs : List (List Tag × List Tag)) (tags contextTags : List Tag)
    (opts : List DhcpOpt) :
    (filterTagged exprs tags contextTags opts).1 = runTagIf exprs (contextTags ++ tags) := by
  unfold filterTagged
  split_ifs with hnone
  · rw [hnone, List.nil_append]
  · rfl

theorem bare_filterTagged (exprs : List (List Tag × List Tag)) (tags contextTags : List Tag)
    (opts : List DhcpOpt) :
    (filterTagged exprs tags contextTags opts).2.map DhcpOpt.bare = opts.map DhcpOpt.bare := by
  have hreset : ∀ tagif o, (resetStale tagif o).bare = o.bare := by
    intro tagif o
    unfold resetStale
    split_ifs <;> rfl
  have hfirst : (opts.map (flagClient (runTagIf exprs tags))).map DhcpOpt.bare =
    opts.map DhcpOpt.bare := by
    rw [List.map_map]
    rfl
  unfold filterTagged
  split_ifs
  · exact hfirst
  · rw [map_visitEach DhcpOpt.bare fun s done opt rest ↦
      (flagContext_visited _ s done opt rest).bare, List.map_map, ← hfirst]
    exact List.map_congr_left fun o _ ↦ hreset _ o

/-- Whatever the options, the tags and the rules, the flags follow the tags, and only plain options
have one. -/
theorem optionFilter_precedence (exprs : List (List Tag × List Tag)) (tags contextTags : List Tag)
    (opts : List DhcpOpt) :
    TagPrecedence (runTagIf exprs tags) (runTagIf exprs (contextTags ++ tags))
      (fun p ↦ p.plain = true) opts (optionFilter exprs tags contextTags opts).2.1 ∧
    ∀ o ∈ (optionFilter exprs tags contextTags opts).2.1, o.tagOk = true → o.plain = true := by
  have htagged := filterTagged_spec exprs tags contextTags opts
  rw [filterTagged_fst] at htagged
  have hnetid : ∀ o ∈ (filterTagged exprs tags contextTags opts).2, o.tagOk = true → o.netid ≠ [] :=
    fun o hmem hflagged ↦
    netid_of_meets (htagged.flagged o (by simpa using hmem) hflagged).2
  have hstart : AllSoFar (runTagIf exprs tags) (runTagIf exprs (contextTags ++ tags)) []
      (filterTagged exprs tags contextTags opts).2 := by
    refine ⟨fun o hmem hflagged ↦ ?_, fun o hmem hflagged _ ↦ ?_, ?_,
      fun o hmem hflagged _ hclient p hp ↦ ?_, fun o hmem hplain hfinal ↦ ?_, by simp⟩
    · exact (htagged.flagged o (by simpa using hmem) hflagged).1
    · exact (htagged.flagged o (by simpa using hmem) hflagged).2
    · refine List.Pairwise.imp_of_mem (fun ho hp _ _ ↦ ⟨?_, ?_⟩)
        (List.pairwise_of_forall fun _ _ ↦ trivial)
      · exact hnetid _ (List.mem_filter.mp ho).1 (List.mem_filter.mp ho).2
      · exact hnetid _ (List.mem_filter.mp hp).1 (List.mem_filter.mp hp).2
    · exact htagged.context o (by simpa using hmem) hflagged hclient p (by simpa using hp)
    · simpa using htagged.present o hmem hplain hfinal
  have hall : AllSoFar _ _ (optionFilter exprs tags contextTags opts).2.1 [] :=
    visitEach_invariant (fun _ done rest ↦ AllSoFar _ _ done rest)
      (fun s done opt rest hsofar ↦ hsofar.step (flagUntagged_visited s done opt rest)) _
        (s := ([] : List ℕ)) hstart
  have hmem : ∀ o ∈ (optionFilter exprs tags contextTags opts).2.1,
      o ∈ (optionFilter exprs tags contextTags opts).2.1 ++ [] := fun o ho ↦ by simpa using ho
  refine ⟨⟨?_, fun o ho ↦ hall.meets o (hmem o ho), by simpa using hall.alone,
    fun o ho hflagged hne hclient p hp ↦ ?_, fun o ho hplain hwanted ↦ ?_⟩,
    fun o ho ↦ hall.plain o (hmem o ho)⟩
  · exact (map_visitEach DhcpOpt.bare (fun s done opt rest ↦
      (flagUntagged_visited s done opt rest).bare) _ _ _).trans
      (bare_filterTagged exprs tags contextTags opts)
  · exact hall.context o (hmem o ho) hflagged hne hclient p (hmem p hp)
  · rcases hwanted with hfinal | hnil
    · simpa using hall.tagged o (hmem o ho) hplain hfinal
    · simpa using hall.untagged o ho hplain hnil

/-- An option of a vendor for the tag of the client, and one of the same number for the tag of the
range. -/
def vendorAndRange : List DhcpOpt :=
  [⟨3, false, true, false, false, [[99]]⟩, ⟨3, false, false, false, false, [[114]]⟩]

theorem not_precedence_vendor :
    ¬ TagPrecedence (runTagIf [] [[99]]) (runTagIf [] ([[114]] ++ [[99]]))
      (fun _ ↦ True) vendorAndRange (optionFilter [] [[99]] [[114]] vendorAndRange).2.1 := by
  intro hprecedence
  have hresult : (optionFilter [] [[99]] [[114]] vendorAndRange).2.1 =
      [⟨3, false, true, false, false, [[99]]⟩, ⟨3, false, false, false, true, [[114]]⟩] := by decide
  rw [hresult] at hprecedence
  exact hprecedence.client ⟨3, false, false, false, true, [[114]]⟩
    (by simp) rfl (by simp) (by decide)
    ⟨3, false, true, false, false, [[99]]⟩ (by simp) trivial rfl (by decide)

end CrossBreeder.Dnsmasq
