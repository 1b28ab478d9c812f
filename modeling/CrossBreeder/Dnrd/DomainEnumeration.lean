import CrossBreeder.Dnrd.Master
import Mathlib.Data.List.Basic

/-!
# Going through the name servers of a domain

`dns_lookup` is called again and again, with a cursor that says where it found the last record. What
the calls return until the first one that returns null are the records for the name itself and for
the domains that it is in, in the order of the database (`enumerates_iff`).
-/

namespace CrossBreeder.Dnrd

open Foundation

/-! ### The cursor -/

/-- `DNS_DNS`. -/
def DnsRecord.isDns (rec : DnsRecord) : Bool :=
  match rec.u with
  | .dns _ => true
  | _ => false

/-- The test of a round. Both lengths are a `size_t`, and `k` is an `int`. -/
def dnsLookupTest (name : List UInt8) (rec : DnsRecord) : Bool :=
  let k := narrowInt (narrowInt name.length - rec.object.string.length)
  rec.isDns && 0 ≤ k &&
    if 0 < k ∧ name.getD (k.toNat - 1) 0 = 46 ∧ name.drop k.toNat = rec.object.string then true
    else k = 0 ∧ name = rec.object.string

/-- The loop, from the record `i` on. -/
def dnsLookupLoop (name : List UInt8) : ℕ → List DnsRecord → Option (ℕ × DnsRecord)
  | _, [] => none
  | i, rec :: rest => if dnsLookupTest name rec then some (i, rec)
    else dnsLookupLoop name (i + 1) rest

/-- `dns_lookup`, with the value that it leaves in `*last`. -/
def dnsLookup (db : List DnsRecord) (name : List UInt8) (last : ℤ) : Option DnsRecord × ℤ :=
  let first := if last < 0 then 0 else (last + 1).toNat
  match dnsLookupLoop name first (db.drop first) with
  | some (i, rec) => (some rec, i)
  | none => (none, first)

/-- The records that the calls return from a value of `*last` on, until one returns null. -/
inductive Enumerates (db : List DnsRecord) (name : List UInt8) : ℤ → List DnsRecord → Prop
  | stop {last next : ℤ} (hcall : dnsLookup db name last = (none, next)) :
    Enumerates db name last []
  | call {last next : ℤ} {rec : DnsRecord} {recs : List DnsRecord}
      (hcall : dnsLookup db name last = (some rec, next)) (hrest : Enumerates db name next recs) :
      Enumerates db name last (rec :: recs)

/-! ### Domains of a name -/

def DotSuffix (object name : List UInt8) :
    Prop := object = name ∨ ∃ front, name = front ++ 46 :: object

theorem belowObject_iff (name object : List UInt8) :
    belowObject name object = true ↔ DotSuffix object name := by
  unfold belowObject DotSuffix
  split_ifs with hlength
  · rw [decide_eq_true_eq]
    constructor
    · rintro ⟨hdot, hdrop⟩
      obtain ⟨place, hplace⟩ : ∃ place, name.length - object.length = place + 1 :=
        Nat.exists_eq_add_one.mpr (by omega)
      have hinside : place < name.length := by omega
      rw [hplace, Nat.add_sub_cancel, List.getD_eq_getElem?_getD, List.getElem?_eq_getElem hinside,
        Option.getD_some] at hdot
      rw [hplace] at hdrop
      refine .inr ⟨name.take place, ?_⟩
      rw [← hdrop, ← hdot, ← List.drop_eq_getElem_cons, List.take_append_drop]
    · rintro (rfl | ⟨front, rfl⟩)
      · exact absurd hlength (lt_irrefl _)
      · have hk : (front ++ 46 :: object).length - object.length = front.length + 1 := by
          simp
          omega
        rw [hk]
        exact ⟨by simp, by simp⟩
  · rw [decide_eq_true_eq]
    constructor
    · exact fun h ↦ .inl h.symm
    · rintro (rfl | ⟨front, rfl⟩)
      · rfl
      · simp at hlength
        omega

theorem narrowInt_of_natCast {n : ℕ} (hn : n < 2 ^ 31) : narrowInt n = n :=
  Foundation.narrowInt_eq_self (by omega) (by omega)

instance (object name : List UInt8) : Decidable (DotSuffix object name) :=
  decidable_of_iff _ (belowObject_iff name object)

theorem decide_dotSuffix (object name : List UInt8) :
    decide (DotSuffix object name) = belowObject name object := by
  rw [Bool.eq_iff_iff, decide_eq_true_eq, belowObject_iff]

variable {name : List UInt8}

theorem dnsLookupTest_eq (hname : name.length < 2 ^ 31) (rec : DnsRecord) :
    dnsLookupTest name rec = (rec.isDns && belowObject name rec.object.string) := by
  unfold dnsLookupTest belowObject
  rw [narrowInt_of_natCast hname, Bool.and_assoc]
  congr 1
  by_cases hlength : rec.object.string.length ≤ name.length
  · have hk : narrowInt ((name.length : ℤ) - rec.object.string.length) =
      (name.length - rec.object.string.length : ℕ) := by
      rw [← narrowInt_of_natCast (by omega : name.length - rec.object.string.length < 2 ^ 31)]
      congr 1
      omega
    rw [hk, Int.toNat_natCast]
    rcases hlength.lt_or_eq with hless | hsame
    · have hne : name ≠ rec.object.string :=
        fun heq ↦ ne_of_lt hless (congrArg List.length heq.symm)
      have hpos : 0 < name.length - rec.object.string.length := Nat.sub_pos_of_lt hless
      rw [if_pos hless]
      simp [hne, hpos]
    · simp [hsame]
  · -- the object does not fit, whatever becomes of the difference
    have hne : name ≠ rec.object.string :=
      fun heq ↦ hlength (le_of_eq (congrArg List.length heq.symm))
    have hdrop : ∀ k, name.drop k ≠ rec.object.string := fun k heq ↦ by
      have hshorter := congrArg List.length heq
      rw [List.length_drop] at hshorter
      omega
    rw [if_neg (by omega : ¬ rec.object.string.length < name.length)]
    simp [hne, hdrop]

/-! ### All calls -/

variable {db : List DnsRecord} {name : List UInt8}

theorem dnsLookupLoop_eq_none {i : ℕ} {rest : List DnsRecord} :
    dnsLookupLoop name i rest = none ↔ rest.filter (dnsLookupTest name) = [] := by
  induction rest generalizing i with
  | nil => simp [dnsLookupLoop]
  | cons rec rest ih =>
    rw [dnsLookupLoop, List.filter_cons]
    split_ifs
    · simp
    · exact ih

theorem dnsLookupLoop_eq_some {i j : ℕ} {rec : DnsRecord} {rest : List DnsRecord}
    (hfound : dnsLookupLoop name i rest = some (j, rec)) :
    i ≤ j ∧ j < i + rest.length ∧
      rest.filter (dnsLookupTest name) = rec :: (rest.drop (j + 1 - i)).filter
      (dnsLookupTest name) := by
  induction rest generalizing i with
  | nil => cases hfound
  | cons first rest ih =>
    rw [dnsLookupLoop] at hfound
    rw [List.length_cons]
    split_ifs at hfound with htest
    · obtain ⟨rfl, rfl⟩ := Prod.mk.inj (Option.some.inj hfound)
      refine ⟨le_refl _, by omega, ?_⟩
      rw [List.filter_cons_of_pos htest, Nat.add_sub_cancel_left, List.drop_one, List.tail_cons]
    · obtain ⟨hle, hlt, hrest⟩ := ih hfound
      refine ⟨by omega, by omega, ?_⟩
      rw [List.filter_cons_of_neg htest, hrest,
        (by omega : j + 1 - i = j + 1 - (i + 1) + 1), List.drop_succ_cons]

/-- Where the loop begins for a value of `*last`. -/
def firstAfter (last : ℤ) : ℕ := if last < 0 then 0 else (last + 1).toNat

theorem dnsLookup_eq (db : List DnsRecord) (name : List UInt8) (last : ℤ) :
    dnsLookup db name last = match dnsLookupLoop name (firstAfter last)
      (db.drop (firstAfter last)) with
      | some (i, rec) => (some rec, (i : ℤ))
      | none => (none, (firstAfter last : ℤ)) := rfl

theorem enumerates_behind (rounds : ℕ) : ∀ last : ℤ, db.length < firstAfter last + rounds →
    Enumerates db name last ((db.drop (firstAfter last)).filter (dnsLookupTest name)) := by
  induction rounds with
  | zero =>
    intro last hbehind
    have hnil : db.drop (firstAfter last) = [] := List.drop_of_length_le (le_of_lt hbehind)
    rw [hnil]
    exact .stop (by rw [dnsLookup_eq, hnil, dnsLookupLoop])
  | succ rounds ih =>
    intro last hbehind
    cases hfound : dnsLookupLoop name (firstAfter last) (db.drop (firstAfter last)) with
    | none =>
      rw [dnsLookupLoop_eq_none.mp hfound]
      exact .stop (by rw [dnsLookup_eq, hfound])
    | some found =>
      obtain ⟨j, rec⟩ := found
      obtain ⟨hle, hlt, hrest⟩ := dnsLookupLoop_eq_some hfound
      have hnext : firstAfter (j : ℤ) = j + 1 := by
        unfold firstAfter
        rw [if_neg (by omega)]
        rfl
      rw [hrest, List.drop_drop,
        (by omega : firstAfter last + (j + 1 - firstAfter last) = j + 1), ← hnext]
      exact .call (by rw [dnsLookup_eq, hfound]) (ih j (by omega))

theorem Enumerates.unique {last : ℤ} {recs recs' : List DnsRecord}
    (h : Enumerates db name last recs) (h' : Enumerates db name last recs') : recs = recs' := by
  induction h generalizing recs' with
  | stop hcall =>
    cases h' with
    | stop => rfl
    | call hcall' => cases hcall.symm.trans hcall'
  | call hcall _ ih =>
    cases h' with
    | stop hcall' => cases hcall.symm.trans hcall'
    | call hcall' hrest =>
      obtain ⟨hrec, rfl⟩ := Prod.mk.inj (hcall.symm.trans hcall')
      rw [Option.some.inj hrec, ih hrest]

theorem enumerates_dnsLookup (hname : name.length < 2 ^ 31) :
    Enumerates db name (-1) (db.filter fun rec ↦ rec.isDns ∧ DotSuffix rec.object.string name) := by
  have hall : Enumerates db name (-1) (db.filter (dnsLookupTest name)) :=
    enumerates_behind (db.length + 1) (-1) (Nat.lt_add_left _ (Nat.lt_succ_self _))
  have htest : db.filter (dnsLookupTest name) = db.filter fun rec ↦ rec.isDns ∧
    DotSuffix rec.object.string name := by
    refine List.filter_congr fun rec _ ↦ ?_
    rw [dnsLookupTest_eq hname, Bool.decide_and, Bool.decide_eq_true, decide_dotSuffix]
  exact htest ▸ hall

/-- The servers that the simpler model lists are those of the records that the calls return. -/
theorem dnsLookups_of_enumerates (hname : name.length < 2 ^ 31) {recs : List DnsRecord}
    (h : Enumerates db name (-1) recs) :
    dnsLookups db name = recs.filterMap fun rec ↦ match rec.u with
      | .dns dns => some (rec.object.string, dns.string)
      | _ => none := by
  rw [h.unique (enumerates_dnsLookup hname), List.filterMap_filter]
  refine List.filterMap_congr fun rec _ ↦ ?_
  cases hdata : rec.u with
  | dns dns => simp [DnsRecord.isDns, hdata, ← belowObject_iff]
  | nameip arpa ipnum => simp [DnsRecord.isDns, hdata]
  | authority => simp [DnsRecord.isDns, hdata]

/-- The calls come to an end, and until then they return the `DNS_DNS` records for the name and its
domains, each once and in the order of the database. -/
theorem enumerates_iff (db : List DnsRecord) {name : List UInt8} (hname : name.length < 2 ^ 31)
    (recs : List DnsRecord) :
    Enumerates db name (-1) recs ↔ recs = db.filter fun rec ↦ rec.isDns ∧
      DotSuffix rec.object.string name := by
  constructor
  · exact fun h ↦ h.unique (enumerates_dnsLookup hname)
  · rintro rfl
    exact enumerates_dnsLookup hname

/-- A server for `b`, an address for `b`, a server for `c`, and another one for `b`. -/
def mixedRecords : List DnsRecord :=
  [⟨mkstring [98] 255, .dns (mkstring [115] 255)⟩,
    ⟨mkstring [98] 255, .nameip (mkstring [49] 255) 1⟩,
    ⟨mkstring [99] 255, .dns (mkstring [116] 255)⟩, ⟨mkstring [98] 255, .dns (mkstring [117] 255)⟩]

theorem enumerates_mixedRecords :
    Enumerates mixedRecords [97, 46, 98] (-1)
      [⟨mkstring [98] 255, .dns (mkstring [115] 255)⟩,
      ⟨mkstring [98] 255, .dns (mkstring [117] 255)⟩] :=
  (enumerates_iff mixedRecords (by decide) _).mpr (by decide)

theorem dnsLookups_mixedRecords : dnsLookups mixedRecords [97, 46, 98] =
    [([98], [115]), ([98], [117])] :=
  (dnsLookups_of_enumerates (by decide) (enumerates_dnsLookup (by decide))).trans (by decide)

end CrossBreeder.Dnrd
