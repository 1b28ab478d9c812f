import Mathlib.Data.List.Basic

/-!
# The search for an option

`option_find1` walks over pads and options and reads the byte under `p` as long as `p` is not behind
`end`, so that the byte at `end` is read when the walk comes there. `option_find` searches the
options and, if an option says so, the fields for the file and the server name; it stays below the
size of the packet unless pads and options fill it to the last byte (`optionFind_inside_iff`).
-/

namespace CrossBreeder.Dnsmasq

/-- The bytes of the receive buffer, from the packet on. -/
abbrev Received := ℕ → UInt8

def Received.optionLen (mess : Received) (opt : ℕ) : ℕ := (mess (opt + 1)).toNat

def optionPad : UInt8 := 0
def optionEnd : UInt8 := 255
def optionOverload : ℕ := 52

def snameAt : ℕ := 44

/-- Where the field for the file begins, behind the one for the server name. -/
def fileAt : ℕ := 108

def optionsAt : ℕ := 236

def searchAt : ℕ := optionsAt + 4

variable {mess : Received} {stop size opt minsize p q r a : ℕ}

/-! ### `option_find1` -/

def Wanted (mess : Received) (opt minsize p : ℕ) : Prop :=
  (mess p).toNat = opt ∧ minsize ≤ mess.optionLen p

instance : Decidable (Wanted mess opt minsize p) := inferInstanceAs (Decidable (_ ∧ _))

/-- `option_find1` with the offsets that are read. -/
def optionFind1 (mess : Received) (stop opt minsize p : ℕ) : Option ℕ × List ℕ :=
  if stop < p then (none, [])
  else if mess p = optionEnd then (if opt = 255 then some p else none, [p])
  else if mess p = optionPad then
    let rest := optionFind1 mess stop opt minsize (p + 1)
    (rest.1, p :: rest.2)
  else if stop < p + 2 then (none, [p])
  else if stop < p + (2 + mess.optionLen p) then (none, [p, p + 1])
  else if Wanted mess opt minsize p then (some p, [p, p + 1])
  else
    let rest := optionFind1 mess stop opt minsize (p + (mess.optionLen p + 2))
    (rest.1, p :: (p + 1) :: rest.2)
termination_by stop + 1 - p

/-- Pads and whole options, none of them the end or the option that is looked for, lead from one
offset to another. -/
inductive OptionsPassed (mess : Received) (opt minsize : ℕ) : ℕ → ℕ → Prop
  | done (p : ℕ) : OptionsPassed mess opt minsize p p
  | pad {p q : ℕ} (hend : mess p ≠ optionEnd) (hpad : mess p = optionPad) (hrest :
    OptionsPassed mess opt minsize (p + 1) q) :
      OptionsPassed mess opt minsize p q
  | option {p q : ℕ} (hend : mess p ≠ optionEnd) (hpad : mess p ≠ optionPad) (hother :
    ¬ Wanted mess opt minsize p)
      (hrest : OptionsPassed mess opt minsize (p + (mess.optionLen p + 2)) q) :
        OptionsPassed mess opt minsize p q

/-- A search from `p` to `stop` finds the option, or the end if that is looked for. -/
structure Found (mess : Received) (stop opt minsize p q : ℕ) : Prop where
  passed : OptionsPassed mess opt minsize p q
  inside : q ≤ stop
  wanted : mess q = optionEnd ∧ opt = 255 ∨
    mess q ≠ optionEnd ∧ mess q ≠ optionPad ∧ Wanted mess opt minsize q ∧
      q + (2 + mess.optionLen q) ≤ stop

namespace OptionsPassed

theorem le (h : OptionsPassed mess opt minsize p q) : p ≤ q := by
  induction h with
  | done p => exact Nat.le_refl p
  | pad _ _ _ ih => omega
  | option _ _ _ _ ih => omega

theorem other {opt' minsize' : ℕ} (h : OptionsPassed mess opt' minsize' p q) (hq : q ≤ stop)
    (hnone : ∀ r, ¬ Found mess stop opt minsize p r) : OptionsPassed mess opt minsize p q := by
  induction h with
  | done => exact .done _
  | pad hend hpad hrest ih =>
    exact .pad hend hpad (ih hq fun r hr ↦ hnone r ⟨.pad hend hpad hr.passed, hr.inside, hr.wanted⟩)
  | @option p q hend hpad _ hrest ih =>
    have hle := hrest.le
    have hother : ¬ Wanted mess opt minsize p := fun hwanted ↦
      hnone p ⟨.done p, by omega, .inr ⟨hend, hpad, hwanted, by omega⟩⟩
    exact .option hend hpad hother (ih hq fun r hr ↦
      hnone r ⟨.option hend hpad hother hr.passed, hr.inside, hr.wanted⟩)

end OptionsPassed

theorem Found.data_le (h : Found mess stop opt minsize p q) (hopt : opt ≠ 255) :
    minsize ≤ mess.optionLen q ∧ q + (2 + mess.optionLen q) ≤ stop := by
  rcases h.wanted with ⟨_, hend⟩ | ⟨_, _, hwanted, hle⟩
  · exact absurd hend hopt
  · exact ⟨hwanted.2, hle⟩

/-- What a search from `p` on finds is what it finds from the next option on. -/
theorem found_iff : Found mess stop opt minsize p q ↔ p ≤ stop ∧
    (mess p = optionEnd ∧ opt = 255 ∧ q = p ∨
      mess p ≠ optionEnd ∧ mess p = optionPad ∧ Found mess stop opt minsize (p + 1) q ∨
      mess p ≠ optionEnd ∧ mess p ≠ optionPad ∧ p + (2 + mess.optionLen p) ≤ stop ∧
        (Wanted mess opt minsize p ∧ q = p ∨
          ¬ Wanted mess opt minsize p ∧
          Found mess stop opt minsize (p + (mess.optionLen p + 2)) q)) := by
  constructor
  · rintro ⟨hpassed, hinside, hwanted⟩
    have hle := hpassed.le
    refine ⟨by omega, ?_⟩
    cases hpassed with
    | done =>
      rcases hwanted with ⟨hend, hopt⟩ | ⟨hend, hpad, hwanted, hle⟩
      · exact .inl ⟨hend, hopt, rfl⟩
      · exact .inr (.inr ⟨hend, hpad, hle, .inl ⟨hwanted, rfl⟩⟩)
    | pad hend hpad hrest => exact .inr (.inl ⟨hend, hpad, hrest, hinside, hwanted⟩)
    | option hend hpad hother hrest =>
      have := hrest.le
      exact .inr (.inr ⟨hend, hpad, by omega, .inr ⟨hother, hrest, hinside, hwanted⟩⟩)
  · rintro ⟨hle, ⟨hend, hopt, rfl⟩ | ⟨hend, hpad, h⟩ | ⟨hend, hpad, hdata,
      ⟨hwanted, rfl⟩ | ⟨hother, h⟩⟩⟩
    · exact ⟨.done _, hle, .inl ⟨hend, hopt⟩⟩
    · exact ⟨.pad hend hpad h.passed, h.inside, h.wanted⟩
    · exact ⟨.done _, hle, .inr ⟨hend, hpad, hwanted, hdata⟩⟩
    · exact ⟨.option hend hpad hother h.passed, h.inside, h.wanted⟩

theorem optionFind1_eq_some_iff :
    (optionFind1 mess stop opt minsize p).1 = some q ↔ Found mess stop opt minsize p q := by
  induction p using optionFind1.induct mess stop opt minsize with
  | case1 p hbehind =>
    rw [optionFind1, found_iff, if_pos hbehind]
    simp [Nat.not_le.mpr hbehind]
  | case2 p hbehind hend =>
    rw [optionFind1, found_iff, if_neg hbehind, if_pos hend]
    by_cases hopt : opt = 255
    · simp [hopt, hend, Nat.not_lt.mp hbehind, eq_comm]
    · simp [hopt, hend]
  | case3 p hbehind hend hpad ih =>
    rw [optionFind1, found_iff, if_neg hbehind, if_neg hend, if_pos hpad]
    simp [hpad, show optionPad ≠ optionEnd by decide, Nat.not_lt.mp hbehind, ih]
  | case4 p hbehind hend hpad hshort =>
    rw [optionFind1, found_iff, if_neg hbehind, if_neg hend, if_neg hpad, if_pos hshort]
    have hdata : ¬ p + (2 + mess.optionLen p) ≤ stop := by omega
    simp [hend, hpad, hdata]
  | case5 p hbehind hend hpad hshort hdata =>
    rw [optionFind1, found_iff, if_neg hbehind, if_neg hend, if_neg hpad,
      if_neg hshort, if_pos hdata]
    simp [hend, hpad, Nat.not_le.mpr hdata]
  | case6 p hbehind hend hpad hshort hdata hwanted =>
    rw [optionFind1, found_iff, if_neg hbehind, if_neg hend, if_neg hpad, if_neg hshort,
      if_neg hdata, if_pos hwanted]
    simp [hend, hpad, Nat.not_lt.mp hbehind, Nat.not_lt.mp hdata, hwanted, eq_comm]
  | case7 p hbehind hend hpad hshort hdata hother ih =>
    rw [optionFind1, found_iff, if_neg hbehind, if_neg hend, if_neg hpad, if_neg hshort,
      if_neg hdata, if_neg hother]
    simp [hend, hpad, Nat.not_lt.mp hbehind, Nat.not_lt.mp hdata, hother, ih]

/-- The byte at `q` is read, and the length behind it unless the byte says that there is none or
the area is over. -/
def ReadAt (mess : Received) (stop q a : ℕ) : Prop :=
  a = q ∨ a = q + 1 ∧ mess q ≠ optionEnd ∧ mess q ≠ optionPad ∧ q + 2 ≤ stop

/-- A search reads the offset: the byte or the length where it passes. -/
def Reads (mess : Received) (stop opt minsize p a : ℕ) : Prop :=
  ∃ q, OptionsPassed mess opt minsize p q ∧ q ≤ stop ∧ ReadAt mess stop q a

theorem reads_iff : Reads mess stop opt minsize p a ↔ p ≤ stop ∧
    (ReadAt mess stop p a ∨
      mess p ≠ optionEnd ∧ mess p = optionPad ∧ Reads mess stop opt minsize (p + 1) a ∨
      mess p ≠ optionEnd ∧ mess p ≠ optionPad ∧ ¬ Wanted mess opt minsize p ∧
        Reads mess stop opt minsize (p + (mess.optionLen p + 2)) a) := by
  constructor
  · rintro ⟨q, hpassed, hinside, hread⟩
    have hle := hpassed.le
    refine ⟨by omega, ?_⟩
    cases hpassed with
    | done => exact .inl hread
    | pad hend hpad hrest => exact .inr (.inl ⟨hend, hpad, q, hrest, hinside, hread⟩)
    | option hend hpad hother hrest =>
      exact .inr (.inr ⟨hend, hpad, hother, q, hrest, hinside, hread⟩)
  · rintro ⟨hle, hread | ⟨hend, hpad, q, hrest, hinside, hread⟩ | ⟨hend, hpad, hother, q, hrest,
      hinside, hread⟩⟩
    · exact ⟨p, .done p, hle, hread⟩
    · exact ⟨q, .pad hend hpad hrest, hinside, hread⟩
    · exact ⟨q, .option hend hpad hother hrest, hinside, hread⟩

theorem not_reads_of_lt (h : stop < p) : ¬ Reads mess stop opt minsize p a := fun hread ↦
  absurd (reads_iff.mp hread).1 (Nat.not_le.mpr h)

theorem mem_optionFind1_iff :
    a ∈ (optionFind1 mess stop opt minsize p).2 ↔ Reads mess stop opt minsize p a := by
  induction p using optionFind1.induct mess stop opt minsize with
  | case1 p hbehind =>
    rw [optionFind1, if_pos hbehind]
    simp [not_reads_of_lt hbehind]
  | case2 p hbehind hend =>
    rw [optionFind1, reads_iff, if_neg hbehind, if_pos hend]
    simp [ReadAt, hend, Nat.not_lt.mp hbehind]
  | case3 p hbehind hend hpad ih =>
    rw [optionFind1, reads_iff, if_neg hbehind, if_neg hend, if_pos hpad]
    simp [ReadAt, hpad, show optionPad ≠ optionEnd by decide, Nat.not_lt.mp hbehind, ih]
  | case4 p hbehind hend hpad hshort =>
    rw [optionFind1, reads_iff, if_neg hbehind, if_neg hend, if_neg hpad, if_pos hshort]
    have hnext : ¬ Reads mess stop opt minsize (p + (mess.optionLen p + 2)) a :=
      not_reads_of_lt (by omega)
    simp [ReadAt, hpad, Nat.not_lt.mp hbehind, Nat.not_le.mpr hshort, hnext]
  | case5 p hbehind hend hpad hshort hdata =>
    rw [optionFind1, reads_iff, if_neg hbehind, if_neg hend, if_neg hpad,
      if_neg hshort, if_pos hdata]
    have hnext : ¬ Reads mess stop opt minsize (p + (mess.optionLen p + 2)) a :=
      not_reads_of_lt (by omega)
    simp [ReadAt, hend, hpad, Nat.not_lt.mp hbehind, Nat.not_lt.mp hshort, hnext]
  | case6 p hbehind hend hpad hshort hdata hwanted =>
    rw [optionFind1, reads_iff, if_neg hbehind, if_neg hend, if_neg hpad, if_neg hshort,
      if_neg hdata, if_pos hwanted]
    simp [ReadAt, hend, hpad, Nat.not_lt.mp hbehind, Nat.not_lt.mp hshort, hwanted]
  | case7 p hbehind hend hpad hshort hdata hother ih =>
    rw [optionFind1, reads_iff, if_neg hbehind, if_neg hend, if_neg hpad, if_neg hshort,
      if_neg hdata, if_neg hother]
    simp [ReadAt, hend, hpad, Nat.not_lt.mp hbehind, Nat.not_lt.mp hshort, hother, ih, or_assoc]

theorem optionFind1_inside_iff :
    (∀ a ∈ (optionFind1 mess stop opt minsize p).2, a < stop) ↔
      ¬ OptionsPassed mess opt minsize p stop := by
  constructor
  · intro h hpassed
    exact absurd (h stop (mem_optionFind1_iff.mpr ⟨stop, hpassed, Nat.le_refl stop, .inl rfl⟩))
      (Nat.lt_irrefl stop)
  · intro h a ha
    obtain ⟨q, hpassed, hq, hread⟩ := mem_optionFind1_iff.mp ha
    have hne : q ≠ stop := by
      rintro rfl
      exact h hpassed
    rcases hread with rfl | ⟨rfl, _⟩ <;> omega

theorem le_of_mem_optionFind1 (ha : a ∈ (optionFind1 mess stop opt minsize p).2) : a ≤ stop := by
  obtain ⟨q, _, hq, hread⟩ := mem_optionFind1_iff.mp ha
  rcases hread with rfl | ⟨rfl, _⟩ <;> omega

/-! ### `option_find` -/

abbrev SearchResult := Option ℕ × List ℕ

/-- A search that is made if the one before finds nothing. -/
def SearchResult.orElse (first next : SearchResult) : SearchResult :=
  if first.1.isSome then first else (next.1, first.2 ++ next.2)

namespace SearchResult

variable {first next : SearchResult}

theorem orElse_eq_some_iff :
    (first.orElse next).1 = some q ↔ first.1 = some q ∨ first.1 = none ∧ next.1 = some q := by
  unfold orElse
  cases h : first.1 with
  | none => simp
  | some r => simp [h]

theorem mem_orElse_iff : a ∈ (first.orElse next).2 ↔ a ∈ first.2 ∨ first.1 = none ∧ a ∈ next.2 := by
  unfold orElse
  cases h : first.1 with
  | none => simp
  | some r => simp

end SearchResult

/-- The search of a field, if the overload option at `overload` has the bit for it. -/
def fieldSearch (mess : Received) (opt minsize overload : ℕ) (bit : UInt8) (start stop : ℕ) :
    SearchResult :=
  if mess (overload + 2) &&& bit ≠ 0 then
    let found := optionFind1 mess stop opt minsize start
    (found.1, (overload + 2) :: found.2)
  else (none, [overload + 2])

/-- The fields that the overload option at `overload` allows, first the file, then the server
name. -/
def fieldsSearch (mess : Received) (opt minsize overload : ℕ) : SearchResult :=
  SearchResult.orElse (fieldSearch mess opt minsize overload 1 fileAt optionsAt)
    (fieldSearch mess opt minsize overload 2 snameAt fileAt)

/-- The search for the overload option and that of the fields. -/
def overloadSearch (mess : Received) (size opt minsize : ℕ) : SearchResult :=
  match (optionFind1 mess size optionOverload 1 searchAt).1 with
  | none => optionFind1 mess size optionOverload 1 searchAt
  | some o =>
    ((fieldsSearch mess opt minsize o).1,
      (optionFind1 mess size optionOverload 1 searchAt).2 ++ (fieldsSearch mess opt minsize o).2)

def optionFind (mess : Received) (size opt minsize : ℕ) : SearchResult :=
  SearchResult.orElse (optionFind1 mess size opt minsize searchAt)
    (overloadSearch mess size opt minsize)

/-- A field that may be searched has the option. -/
def InField (mess : Received) (opt minsize overload : ℕ) (bit : UInt8) (start stop q : ℕ) : Prop :=
  mess (overload + 2) &&& bit ≠ 0 ∧ Found mess stop opt minsize start q

/-- Where `option_find` finds an option. -/
inductive OptionAt (mess : Received) (size opt minsize q : ℕ) : Prop
  | options (h : Found mess size opt minsize searchAt q)
  | file {o : ℕ} (hnone : ∀ r, ¬ Found mess size opt minsize searchAt r)
      (hoverload : Found mess size optionOverload 1 searchAt o) (h :
        InField mess opt minsize o 1 fileAt optionsAt q)
  | sname {o : ℕ} (hnone : ∀ r, ¬ Found mess size opt minsize searchAt r)
      (hoverload : Found mess size optionOverload 1 searchAt o)
      (hfile : ∀ r, ¬ InField mess opt minsize o 1 fileAt optionsAt r) (h :
        InField mess opt minsize o 2 snameAt fileAt q)

theorem optionFind1_eq_none_iff :
    (optionFind1 mess stop opt minsize p).1 = none ↔ ∀ r, ¬ Found mess stop opt minsize p r := by
  rw [Option.eq_none_iff_forall_ne_some]
  exact forall_congr' fun r ↦ not_congr optionFind1_eq_some_iff

theorem Found.unique (h : Found mess stop opt minsize p q) (h' : Found mess stop opt minsize p r) :
    q = r :=
  Option.some.inj ((optionFind1_eq_some_iff.mpr h).symm.trans (optionFind1_eq_some_iff.mpr h'))

section Field

variable {overload start : ℕ} {bit : UInt8}

theorem fieldSearch_eq_some_iff :
    (fieldSearch mess opt minsize overload bit start stop).1 = some q ↔
    InField mess opt minsize overload bit start stop q := by
  unfold fieldSearch InField
  split
  · rename_i hbit
    simp [hbit, optionFind1_eq_some_iff]
  · rename_i hbit
    simp [hbit]

theorem fieldSearch_eq_none_iff : (fieldSearch mess opt minsize overload bit start stop).1 = none ↔
    ∀ r, ¬ InField mess opt minsize overload bit start stop r := by
  rw [Option.eq_none_iff_forall_ne_some]
  exact forall_congr' fun r ↦ not_congr fieldSearch_eq_some_iff

theorem le_of_mem_fieldSearch (ha : a ∈ (fieldSearch mess opt minsize overload bit start stop).2) :
    a = overload + 2 ∨ a ≤ stop := by
  unfold fieldSearch at ha
  split at ha
  · exact (List.mem_cons.mp ha).imp_right le_of_mem_optionFind1
  · exact .inl (List.mem_singleton.mp ha)

end Field

theorem overloadSearch_of_found {o : ℕ} (h : Found mess size optionOverload 1 searchAt o) :
    (overloadSearch mess size opt minsize).1 = (fieldsSearch mess opt minsize o).1 := by
  rw [overloadSearch, optionFind1_eq_some_iff.mpr h]

theorem optionFind_eq_some_iff :
    (optionFind mess size opt minsize).1 = some q ↔ OptionAt mess size opt minsize q := by
  rw [optionFind, SearchResult.orElse_eq_some_iff, optionFind1_eq_some_iff, optionFind1_eq_none_iff]
  constructor
  · rintro (h | ⟨hnone, h⟩)
    · exact .options h
    · unfold overloadSearch at h
      split at h
      · rename_i hoverload
        exact absurd (h.symm.trans hoverload) (by simp)
      · rename_i o hoverload
        have hoverload := optionFind1_eq_some_iff.mp hoverload
        rcases SearchResult.orElse_eq_some_iff.mp h with h | ⟨hfile, h⟩
        · exact .file hnone hoverload (fieldSearch_eq_some_iff.mp h)
        · exact .sname hnone hoverload (fieldSearch_eq_none_iff.mp hfile)
            (fieldSearch_eq_some_iff.mp h)
  · intro h
    cases h with
    | options h => exact .inl h
    | file hnone hoverload h =>
      exact .inr ⟨hnone, (overloadSearch_of_found hoverload).trans
        (SearchResult.orElse_eq_some_iff.mpr (.inl (fieldSearch_eq_some_iff.mpr h)))⟩
    | sname hnone hoverload hfile h =>
      exact .inr ⟨hnone, (overloadSearch_of_found hoverload).trans
        (SearchResult.orElse_eq_some_iff.mpr
        (.inr ⟨fieldSearch_eq_none_iff.mpr hfile, fieldSearch_eq_some_iff.mpr h⟩))⟩

theorem OptionAt.data_le (h : OptionAt mess size opt minsize q) (hopt : opt ≠ 255) :
    minsize ≤ mess.optionLen q ∧ q + (2 + mess.optionLen q) ≤ size := by
  have hfield : ∀ {o stop start : ℕ}, Found mess size optionOverload 1 searchAt o →
    stop ≤ optionsAt →
      Found mess stop opt minsize start q → minsize ≤ mess.optionLen q ∧
        q + (2 + mess.optionLen q) ≤ size := by
    intro o stop start hoverload hstop hfound
    have hle := hoverload.passed.le
    have hin := hoverload.inside
    have hdata := hfound.data_le hopt
    unfold searchAt at hle
    omega
  cases h with
  | options h => exact h.data_le hopt
  | file _ hoverload h => exact hfield hoverload (Nat.le_refl _) h.2
  | sname _ hoverload _ h => exact hfield hoverload (by decide) h.2

/-- All that `option_find` reads is in the packet unless pads and options, none of them the one that
is looked for, fill it. -/
theorem optionFind_inside_iff :
    (∀ a ∈ (optionFind mess size opt minsize).2, a < size) ↔
      ¬ OptionsPassed mess opt minsize searchAt size := by
  simp only [optionFind, SearchResult.mem_orElse_iff]
  constructor
  · exact fun h ↦ optionFind1_inside_iff.mp fun a ha ↦ h a (.inl ha)
  · rintro hpassed a (ha | ⟨hnone, ha⟩)
    · exact optionFind1_inside_iff.mpr hpassed a ha
    · -- the search for the overload passes what the one before has passed
      have hoverload :=
        optionFind1_inside_iff.mpr fun h : OptionsPassed mess optionOverload 1 searchAt size ↦
        hpassed (h.other (Nat.le_refl size) (optionFind1_eq_none_iff.mp hnone))
      unfold overloadSearch at ha
      split at ha
      · exact hoverload a ha
      · rename_i o hfound
        have hdata := (optionFind1_eq_some_iff.mp hfound).data_le (by decide)
        have hle := (optionFind1_eq_some_iff.mp hfound).passed.le
        have hfields : a = o + 2 ∨ a ≤ optionsAt → a < size := by
          unfold searchAt at hle
          omega
        rcases List.mem_append.mp ha with ha | ha
        · exact hoverload a ha
        · rcases SearchResult.mem_orElse_iff.mp ha with ha | ⟨_, ha⟩
          · exact hfields (le_of_mem_fieldSearch ha)
          · exact hfields ((le_of_mem_fieldSearch ha).imp_right fun h ↦ Nat.le_trans h (by decide))

end CrossBreeder.Dnsmasq
