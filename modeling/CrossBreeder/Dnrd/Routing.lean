import CrossBreeder.Dnrd.Servers
import CrossBreeder.Dnrd.Wire
import CrossBreeder.Foundation.LongestMatch
import Mathlib.Data.List.Forall2
import Mathlib.Data.List.Infix

/-!
# Choosing the domain of a query

`make_cname` and `search_subdomnode`. A configured domain is kept in the wire form of its labels
without the final zero (`makeCname_spec`), and the search compares these bytes with the end of the
query name, read as a C string. `searchSubdomnode_spec` says what that amounts to: the result is the
longest configured domain that is a tail of the name's bytes.

A tail of the bytes may start inside a label, as a length byte can also be a character of one.
`searchSubdomnode_routedTo_iff` says exactly when the search finds the longest label-aligned domain,
and `digit_label_matches_mid_label` is a name for which it does not.
-/

namespace CrossBreeder.Dnrd

open Foundation

/-- How a function of the program can fail to return: a failed assertion ends the process, and a
loop goes on past the system calls whose outcome is given. -/
inductive Stop
  | assertion
  | waiting
  deriving DecidableEq, Repr

/-! ### Wire form of configured domains -/

def encodeName (labels : List (List UInt8)) : List UInt8 :=
  labels.flatMap fun label ↦ UInt8.ofNat label.length :: label

/-- `strchr(text + start, '.')`, as an index of `text`. -/
def findDot (text : List UInt8) (start : ℕ) : Option ℕ :=
  ((text.drop start).findIdx? (· = 46)).map (start + ·)

/-- The loop of `make_cname`: the start of the current label and the bytes written so far. -/
def makeCnameLoop (text : List UInt8) (maxlen : ℕ) : ℕ → ℕ → List UInt8 → Option (List UInt8)
  | 0, _, _ => none
  | fuel + 1, tptr, out =>
    let stop := (findDot text tptr).getD (strnlen text maxlen)
    if stop ≤ tptr then none
    else
      let out := out ++ UInt8.ofNat (stop - tptr) :: (text.drop tptr).take (stop - tptr)
      if text.length ≤ stop then some out else makeCnameLoop text maxlen fuel (stop + 1) out

/-- `make_cname`: the wire form of a dotted text without the final zero, null when a label is empty.
Each label takes at least one character of the text, which bounds the iterations. -/
def makeCname (text : List UInt8) (maxlen : ℕ) : Except Stop (Option (List UInt8)) :=
  match if text = [] then some [] else makeCnameLoop text maxlen (text.length + 1) 0 [] with
  | none => .ok none
  | some out => if out.length = strnlen text maxlen + 1 then .ok (some out) else .error .assertion

def domainLabels (text : List UInt8) : List (List UInt8) := text.splitOn 46

@[simp] theorem encodeName_nil : encodeName [] = [] := rfl

@[simp] theorem encodeName_cons (label : List UInt8) (labels : List (List UInt8)) :
    encodeName (label :: labels) = UInt8.ofNat label.length :: (label ++ encodeName labels) := by
  simp [encodeName]

theorem encodeName_append (front back : List (List UInt8)) :
    encodeName (front ++ back) = encodeName front ++ encodeName back := by
  simp [encodeName]

theorem encodeName_injective {left right : List (List UInt8)}
    (hleft : ∀ label ∈ left, label.length < 256) (hright : ∀ label ∈ right, label.length < 256)
    (h : encodeName left = encodeName right) : left = right := by
  induction left generalizing right with
  | nil =>
    cases right with
    | nil => rfl
    | cons label right => simp at h
  | cons label left ih =>
    cases right with
    | nil => simp at h
    | cons label' right =>
      rw [encodeName_cons, encodeName_cons] at h
      obtain ⟨hbyte, hrest⟩ := List.cons.inj h
      have hlength : label.length = label'.length := by
        have hnat := congrArg UInt8.toNat hbyte
        rw [UInt8.toNat_ofNat', UInt8.toNat_ofNat'] at hnat
        have hlabel := hleft label (by simp)
        have hlabel' := hright label' (by simp)
        omega
      obtain ⟨rfl, htail⟩ := List.append_inj hrest hlength
      rw [ih (fun l hl ↦ hleft l (by simp [hl])) (fun l hl ↦ hright l (by simp [hl])) htail]

variable {text : List UInt8}

theorem findDot_eq_some {start dot : ℕ} (h : findDot text start = some dot) :
    start ≤ dot ∧ dot < text.length ∧ 46 ∉ (text.drop start).take (dot - start) ∧
      text.drop start = (text.drop start).take (dot - start) ++ 46 :: text.drop (dot + 1) := by
  obtain ⟨offset, hoffset, rfl⟩ := Option.map_eq_some_iff.mp h
  obtain ⟨hbound, hdot, hbefore⟩ := List.findIdx?_eq_some_iff_getElem.mp hoffset
  have hlength : start + offset < text.length := by
    rw [List.length_drop] at hbound
    omega
  refine ⟨by omega, hlength, ?_, ?_⟩
  · rw [Nat.add_sub_cancel_left]
    intro hmem
    obtain ⟨index, hindex, hget⟩ := List.mem_iff_getElem.mp hmem
    rw [List.length_take] at hindex
    have hfree := hbefore index (by omega)
    rw [List.getElem_take] at hget
    simp [hget] at hfree
  · rw [Nat.add_sub_cancel_left]
    have hsplit := (List.take_append_drop offset (text.drop start)).symm
    rw [List.drop_eq_getElem_cons hbound] at hsplit
    have hbyte : (text.drop start)[offset] = 46 := by simpa using hdot
    rw [hbyte, List.drop_drop] at hsplit
    rw [Nat.add_assoc]
    exact hsplit

theorem findDot_eq_none {start : ℕ} (h : findDot text start = none) :
    46 ∉ text.drop start := by
  have hnone : (text.drop start).findIdx? (· = 46) = none := by simpa [findDot] using h
  intro hmem
  have hfree := List.findIdx?_eq_none_iff.mp hnone 46 hmem
  simp at hfree

theorem findDot_eq_none_of_le {start later : ℕ} (hfree : 46 ∉ text.drop start)
    (hle : start ≤ later) : findDot text later = none := by
  have hsub : ∀ byte ∈ text.drop later, byte ≠ 46 := by
    intro byte hbyte hdot
    exact hfree (hdot ▸ (List.drop_suffix_drop_left text hle).subset hbyte)
  simpa [findDot] using hsub

theorem domainLabels_drop_of_dot {start dot : ℕ}
    (h : findDot text start = some dot) :
    domainLabels (text.drop start) =
      (text.drop start).take (dot - start) :: domainLabels (text.drop (dot + 1)) := by
  obtain ⟨-, -, hfree, hsplit⟩ := findDot_eq_some h
  conv_lhs => rw [hsplit]
  rw [domainLabels, List.splitOn_append_cons_self, List.splitOn_eq_singleton hfree]
  rfl

theorem makeCnameLoop_eq_none {maxlen start : ℕ} (hfree : 46 ∉ text.drop start)
    (hstart : start ≤ min text.length maxlen) (fuel : ℕ) (out : List UInt8) :
    makeCnameLoop text maxlen fuel (min text.length maxlen + 1) out = none := by
  cases fuel with
  | zero => rfl
  | succ fuel =>
    have hdot : findDot text (min text.length maxlen + 1) = none :=
      findDot_eq_none_of_le hfree (by omega)
    have hbound : strnlen text maxlen ≤ min text.length maxlen := by
      rw [strnlen_eq_min]
      have := length_cstr_le text
      omega
    simp only [makeCnameLoop, hdot, Option.getD_none]
    rw [if_pos (by omega)]

variable {maxlen : ℕ}

/-- What the loop of `make_cname` returns: the wire form of the labels from its position on, none of
them empty, for a text not longer than the bound. -/
theorem makeCnameLoop_spec (hzero : 0 ∉ text) (fuel : ℕ) :
    ∀ {tptr : ℕ} {out result : List UInt8},
      makeCnameLoop text maxlen fuel tptr out = some result →
      text.length ≤ maxlen ∧ result = out ++ encodeName (domainLabels (text.drop tptr)) ∧
        ∀ label ∈ domainLabels (text.drop tptr), label ≠ [] := by
  induction fuel with
  | zero => simp [makeCnameLoop]
  | succ fuel ih =>
    intro tptr out result h
    have hstrnlen : strnlen text maxlen = min text.length maxlen := by
      rw [strnlen_eq_min, cstr_of_zero_notMem hzero]
    simp only [makeCnameLoop] at h
    cases hdot : findDot text tptr with
    | some dot =>
      obtain ⟨hstart, hlength, -, -⟩ := findDot_eq_some hdot
      simp only [hdot, Option.getD_some] at h
      split_ifs at h with hempty hend
      · omega
      · obtain ⟨hmax, hresult, hlabels⟩ := ih h
        have hdomain := domainLabels_drop_of_dot hdot
        have hlabel : ((text.drop tptr).take (dot - tptr)).length = dot - tptr := by
          rw [List.length_take, List.length_drop]
          omega
        refine ⟨hmax, ?_, ?_⟩
        · rw [hresult, hdomain, encodeName_cons, hlabel]
          simp
        · rw [hdomain]
          intro label hmem
          rcases List.mem_cons.mp hmem with rfl | hmem
          · refine List.ne_nil_of_length_pos ?_
            omega
          · exact hlabels label hmem
    | none =>
      have hfree := findDot_eq_none hdot
      simp only [hdot, Option.getD_none, hstrnlen] at h
      have hdomain : domainLabels (text.drop tptr) = [text.drop tptr] :=
        List.splitOn_eq_singleton hfree
      split_ifs at h with hempty hend
      · have hmin : min text.length maxlen = text.length := by omega
        obtain rfl := Option.some.inj h
        have htake : (text.drop tptr).take (text.length - tptr) = text.drop tptr :=
          List.take_of_length_le (by rw [List.length_drop])
        refine ⟨by omega, ?_, ?_⟩
        · rw [hdomain, hmin, htake, encodeName_cons, List.length_drop]
          simp
        · rw [hdomain]
          intro label hmem
          obtain rfl := List.mem_singleton.mp hmem
          refine List.ne_nil_of_length_pos ?_
          rw [List.length_drop]
          omega
      · -- the bound cut the text short: the next iteration starts behind it and finds no label
        exact absurd h (by
          rw [makeCnameLoop_eq_none hfree (by omega)]
          simp)

theorem makeCname_spec {text cname : List UInt8} (hzero : 0 ∉ text)
    (h : makeCname text maxlen = .ok (some cname)) :
    text.length ≤ maxlen ∧ cname = encodeName (domainLabels text) ∧
      cname.length = text.length + 1 ∧ ∀ label ∈ domainLabels text, label ≠ [] := by
  unfold makeCname at h
  by_cases htext : text = []
  · subst htext
    simp at h
  · rw [if_neg htext] at h
    cases hloop : makeCnameLoop text maxlen (text.length + 1) 0 [] with
    | none => simp [hloop] at h
    | some out =>
      simp only [hloop] at h
      split_ifs at h with hlength
      obtain rfl : out = cname := by simpa using h
      obtain ⟨hmax, hout, hlabels⟩ := makeCnameLoop_spec hzero _ hloop
      rw [strnlen_eq_min, cstr_of_zero_notMem hzero, Nat.min_eq_left hmax] at hlength
      exact ⟨hmax, by simpa using hout, hlength, by simpa using hlabels⟩

/-! ### The search -/

/-- The comparison of `search_subdomnode`: the domain against the end of the name, or against the
whole name when that is not longer. -/
def endsInDomain (name : List UInt8) (maxlen : ℕ) (d : DomNode) : Bool :=
  let domain := d.domain.getD []
  let n := strnlen name maxlen
  let h := strnlen domain maxlen
  let p := if h < n then n - h else 0
  strncmpEq domain (name.drop p) (maxlen - p)

/-- `search_subdomnode`: the index of the domain with the longest match, zero for the head. -/
def searchSubdomnode (doms : List DomNode) (name : List UInt8) (maxlen : ℕ) : ℕ :=
  (scanBest (endsInDomain name maxlen) (fun d ↦ strnlen (d.domain.getD []) maxlen)
    doms.tail 1 0 0).1

theorem endsInDomain_iff {name domain : List UInt8} {d : DomNode}
    (hd : d.domain = some domain) (hzero : 0 ∉ domain) (hname : (cstr name).length < maxlen) :
    endsInDomain name maxlen d = true ↔ domain <:+ cstr name := by
  have hn : strnlen name maxlen = (cstr name).length := by
    rw [strnlen_eq_min]
    omega
  have hh : strnlen domain maxlen = min domain.length maxlen := by
    rw [strnlen_eq_min, cstr_of_zero_notMem hzero]
  have htake : ∀ count, cstr (domain.take count) = domain.take count := fun count ↦
    cstr_of_zero_notMem fun hmem ↦ hzero (List.mem_of_mem_take hmem)
  simp only [endsInDomain, hd, Option.getD_some, hn, hh, strncmpEq_iff, htake]
  split_ifs with hlt
  · have hmin : min domain.length maxlen = domain.length := by omega
    rw [hmin] at hlt ⊢
    have hdrop := cstr_drop (show (cstr name).length - domain.length ≤ (cstr name).length by omega)
    have hcut : cstr ((name.drop ((cstr name).length - domain.length)).take
        (maxlen - ((cstr name).length - domain.length))) =
        (cstr name).drop ((cstr name).length - domain.length) := by
      rw [cstr_take_of_lt, hdrop]
      rw [hdrop, List.length_drop]
      omega
    rw [hcut, List.take_of_length_le (by omega)]
    exact List.suffix_iff_eq_drop.symm
  · rw [Nat.sub_zero, List.drop_zero, cstr_take_of_lt hname]
    constructor
    · intro heq
      have hlength := congrArg List.length heq
      rw [List.length_take] at hlength
      rw [List.take_of_length_le (by omega)] at heq
      exact heq ▸ List.suffix_refl _
    · intro hsuffix
      have hle := hsuffix.length_le
      rw [List.take_of_length_le (by omega)]
      exact hsuffix.eq_of_length (by omega)

variable {doms : List DomNode}

/-- The search without its arithmetic: the head when no domain is a tail of the name, and otherwise
a domain that is a tail of the name and that no other such domain exceeds. -/
theorem searchSubdomnode_spec {domains : List (List UInt8)}
    {name : List UInt8} (hname : (cstr name).length < maxlen)
    (hdoms : List.Forall₂ (fun d domain ↦ d.domain = some domain ∧ 0 ∉ domain ∧ domain ≠ [])
      doms.tail domains) :
    (searchSubdomnode doms name maxlen = 0 ∧ ∀ domain ∈ domains, ¬ domain <:+ cstr name) ∨
      ∃ index domain, searchSubdomnode doms name maxlen = index + 1 ∧
        domains[index]? = some domain ∧ domain <:+ cstr name ∧
        ∀ other ∈ domains, other <:+ cstr name → other.length ≤ domain.length := by
  have hsize : ∀ domain : List UInt8, 0 ∉ domain → domain <:+ cstr name →
      strnlen domain maxlen = domain.length := by
    intro domain hzero hsuffix
    have hle := hsuffix.length_le
    rw [strnlen_eq_min, cstr_of_zero_notMem hzero]
    omega
  have hscan := scanBest_spec (endsInDomain name maxlen)
    (fun d ↦ strnlen (d.domain.getD []) maxlen) doms.tail 1 0 0
  have hother : ∀ bound : ℕ, (∀ d ∈ doms.tail, endsInDomain name maxlen d = true →
      strnlen (d.domain.getD []) maxlen ≤ bound) →
      ∀ other ∈ domains, other <:+ cstr name → other ≠ [] ∧ other.length ≤ bound := by
    intro bound hle other hmem hsuffix
    obtain ⟨position, hposition, rfl⟩ := List.mem_iff_getElem.mp hmem
    have hlength := hdoms.length_eq
    obtain ⟨hd, hzero, hne⟩ := hdoms.get (show position < doms.tail.length by omega) hposition
    simp only [List.get_eq_getElem] at hd hzero hne
    have hbound := hle _ (List.getElem_mem _) ((endsInDomain_iff hd hzero hname).mpr hsuffix)
    rw [hd, Option.getD_some, hsize _ hzero hsuffix] at hbound
    exact ⟨hne, hbound⟩
  rcases hscan with ⟨hresult, hle⟩ | ⟨index, d, hresult, hd, hmatch, -, hle, -⟩
  · refine Or.inl ⟨by rw [searchSubdomnode, hresult], fun other hmem hsuffix ↦ ?_⟩
    obtain ⟨hne, hzero⟩ := hother 0 hle other hmem hsuffix
    exact hne (List.length_eq_zero_iff.mp (by omega))
  · obtain ⟨hindex, rfl⟩ := List.getElem?_eq_some_iff.mp hd
    have hlength := hdoms.length_eq
    obtain ⟨hdomain, hzero, -⟩ := hdoms.get hindex (show index < domains.length by omega)
    simp only [List.get_eq_getElem] at hdomain hzero
    have hsuffix := (endsInDomain_iff hdomain hzero hname).mp hmatch
    refine Or.inr ⟨index, domains[index], ?_, List.getElem?_eq_getElem _, hsuffix, ?_⟩
    · rw [searchSubdomnode, hresult]
      exact Nat.add_comm 1 index
    · rw [hdomain, Option.getD_some, hsize _ hzero hsuffix] at hle
      exact fun other hmem hother' ↦ (hother _ hle other hmem hother').2

/-- A configured domain that the end of the name is equal to, and that no other such domain exceeds
in length. -/
def IsLongestDomain (doms : List DomNode) (name : List UInt8) (maxlen : ℕ) (d : DomNode) : Prop :=
  IsLargest (endsInDomain name maxlen) (fun d ↦ strnlen (d.domain.getD []) maxlen) doms.tail d

instance (doms : List DomNode) (name : List UInt8) (maxlen : ℕ) (d : DomNode) :
    Decidable (IsLongestDomain doms name maxlen d) :=
  inferInstanceAs (Decidable (IsLargest _ _ _ _))

/-- Two domains of one length that end one name are compared alike with the end of any other name
that is as long. -/
theorem endsInDomain_transfer {name name' : List UInt8}
    (hname : strnlen name maxlen = strnlen name' maxlen) {d d' : DomNode}
    (hsize : strnlen (d.domain.getD []) maxlen = strnlen (d'.domain.getD []) maxlen)
    (hd : endsInDomain name maxlen d = true) (hd' : endsInDomain name maxlen d' = true)
    (hother : endsInDomain name' maxlen d = true) : endsInDomain name' maxlen d' = true := by
  simp only [endsInDomain, hname, hsize, strncmpEq_iff] at hd hd' hother ⊢
  exact hd'.trans (hd.symm.trans hother)

/-- The searches for two names of one length find the same domain exactly when the same configured
domains are longest for both. -/
theorem searchSubdomnode_eq_iff {name name' : List UInt8}
    (hname : strnlen name maxlen = strnlen name' maxlen) :
    searchSubdomnode doms name maxlen = searchSubdomnode doms name' maxlen ↔
      ∀ d ∈ doms.tail, IsLongestDomain doms name maxlen d ↔ IsLongestDomain doms name' maxlen d :=
  scanBest_eq_iff
    (fun _ _ _ _ hsize hd hd' hother ↦ endsInDomain_transfer hname.symm hsize hd hd' hother)
    (fun _ _ _ _ hsize hd hd' hother ↦ endsInDomain_transfer hname hsize hd hd' hother)

/-! ### Label-aligned routing -/

def ConfiguredAs (d : DomNode) (text : List UInt8) : Prop :=
  0 ∉ text ∧ ∃ cname, makeCname text 200 = .ok (some cname) ∧ d.domain = some cname

def Aligned (text : List UInt8) (qname : List (List UInt8)) : Prop := domainLabels text <:+ qname

instance (text : List UInt8) (qname : List (List UInt8)) : Decidable (Aligned text qname) :=
  inferInstanceAs (Decidable (_ <:+ _))

/-- The wire form of the text is a tail of the bytes of the query name, read as a C string. -/
def ByteTail (text : List UInt8) (qname : List (List UInt8)) : Prop :=
  encodeName (domainLabels text) <:+ cstr (encodeName qname)

instance (text : List UInt8) (qname : List (List UInt8)) : Decidable (ByteTail text qname) :=
  inferInstanceAs (Decidable (_ <:+ _))

def IsLongestAligned (texts : List (List UInt8)) (qname : List (List UInt8)) (text : List UInt8) :
    Prop :=
  Aligned text qname ∧ ∀ other ∈ texts, Aligned other qname →
    domainLabels other <:+ domainLabels text

/-- Where a query name belongs: index zero is the head of the domain list, index `n + 1` the domain
configured with text number `n`. -/
def RoutedTo (texts : List (List UInt8)) (qname : List (List UInt8)) : ℕ → Prop
  | 0 => ∀ text ∈ texts, ¬ Aligned text qname
  | n + 1 => ∃ text, texts[n]? = some text ∧ IsLongestAligned texts qname text

/-- The bytes of the query name tell the aligned domains apart from the others: a domain that is a
tail of the bytes without being aligned is shorter than an aligned one, and the longest aligned
domain is a tail of the bytes. -/
def ByteTailsAgree (texts : List (List UInt8)) (qname : List (List UInt8)) : Prop :=
  (∀ text ∈ texts, ByteTail text qname → ¬ Aligned text qname →
    ∃ other ∈ texts, Aligned other qname ∧ text.length < other.length) ∧
  ∀ text ∈ texts, IsLongestAligned texts qname text → ByteTail text qname

theorem infix_intercalate {labels : List (List UInt8)} {label : List UInt8} (h : label ∈ labels) :
    label <:+: [46].intercalate labels := by
  induction labels with
  | nil => simp at h
  | cons first rest ih =>
    cases rest with
    | nil =>
      obtain rfl : label = first := by simpa using h
      simp
    | cons second rest =>
      rw [List.intercalate_cons_cons]
      rcases List.mem_cons.mp h with rfl | hmem
      · rw [List.append_assoc]
        exact (List.prefix_append _ _).isInfix
      · exact (ih hmem).trans (List.suffix_append _ _).isInfix

theorem infix_of_mem_domainLabels {text label : List UInt8} (h : label ∈ domainLabels text) :
    label <:+: text := by
  have hinfix := infix_intercalate h
  rwa [domainLabels, List.intercalate_splitOn] at hinfix

/-- A configured domain in wire form: the labels of its text, none empty or longer than the bound of
`make_cname`, and no zero byte. -/
theorem ConfiguredAs.spec {d : DomNode} (h : ConfiguredAs d text) :
    d.domain = some (encodeName (domainLabels text)) ∧
      (encodeName (domainLabels text)).length = text.length + 1 ∧
      0 ∉ encodeName (domainLabels text) ∧ ∀ label ∈ domainLabels text, label.length < 256 := by
  obtain ⟨hzero, cname, hcname, hd⟩ := h
  obtain ⟨hmax, rfl, hlength, hlabels⟩ := makeCname_spec hzero hcname
  have hshort : ∀ label ∈ domainLabels text, label.length < 256 := by
    intro label hlabel
    have hle := (infix_of_mem_domainLabels hlabel).length_le
    omega
  refine ⟨hd, hlength, ?_, hshort⟩
  intro hmem
  obtain ⟨label, hlabel, hbyte⟩ := List.mem_flatMap.mp hmem
  rcases List.mem_cons.mp hbyte with hbyte | hbyte
  · have hnat := congrArg UInt8.toNat hbyte
    rw [UInt8.toNat_ofNat'] at hnat
    have hpos := List.length_pos_of_ne_nil (hlabels label hlabel)
    have hlt := hshort label hlabel
    simp at hnat
    omega
  · exact hzero ((infix_of_mem_domainLabels hlabel).subset hbyte)

theorem encodeName_suffix {left right : List (List UInt8)} (h : left <:+ right) :
    encodeName left <:+ encodeName right := by
  obtain ⟨front, rfl⟩ := h
  exact ⟨encodeName front, (encodeName_append _ _).symm⟩

/-- Of two label suffixes of one name the one that is not longer in bytes is a suffix of the other.
-/
theorem suffix_of_length_encodeName_le {left right qname : List (List UInt8)}
    (hleft : left <:+ qname) (hright : right <:+ qname)
    (h : (encodeName left).length ≤ (encodeName right).length) : left <:+ right := by
  rcases List.suffix_or_suffix_of_suffix hleft hright with hsuffix | ⟨front, rfl⟩
  · exact hsuffix
  · cases front with
    | nil => exact List.suffix_refl _
    | cons label front =>
      simp only [List.cons_append, encodeName_cons, encodeName_append, List.length_cons,
        List.length_append] at h
      omega

/-- What `make_cname` guarantees of every text it accepts. -/
def WireLengths (texts : List (List UInt8)) : Prop :=
  ∀ text ∈ texts, (encodeName (domainLabels text)).length = text.length + 1 ∧
    ∀ label ∈ domainLabels text, label.length < 256

variable {texts : List (List UInt8)}

theorem wireLengths_of_configured
    (hdoms : List.Forall₂ ConfiguredAs doms texts) : WireLengths texts := by
  intro text hmem
  obtain ⟨position, hposition, rfl⟩ := List.mem_iff_getElem.mp hmem
  have hlength := hdoms.length_eq
  have hspec := (hdoms.get (show position < doms.length by omega) hposition).spec
  exact ⟨hspec.2.1, hspec.2.2.2⟩

variable {qname : List (List UInt8)}

theorem labels_suffix_iff (htexts : WireLengths texts)
    {left right : List UInt8} (hleft : left ∈ texts)
    (hright : right ∈ texts) (hal : Aligned left qname) (har : Aligned right qname) :
    domainLabels left <:+ domainLabels right ↔ left.length ≤ right.length := by
  have hlengths : (encodeName (domainLabels left)).length ≤
    (encodeName (domainLabels right)).length ↔
      left.length ≤ right.length := by
    rw [(htexts left hleft).1, (htexts right hright).1]
    exact Nat.add_le_add_iff_right
  rw [← hlengths]
  exact ⟨fun h ↦ (encodeName_suffix h).length_le, suffix_of_length_encodeName_le hal har⟩

theorem exists_isLongestAligned (htexts : WireLengths texts)
    (hmem : text ∈ texts)
    (haligned : Aligned text qname) : ∃ longest ∈ texts, IsLongestAligned texts qname longest := by
  rcases scanBest_spec (fun text ↦ decide (Aligned text qname)) (fun text ↦ text.length + 1)
    texts 0 0 0 with ⟨-, hnone⟩ | ⟨index, longest, -, hget, hlongest, -, hmax, -⟩
  · have hzero := hnone text hmem (by simpa using haligned)
    omega
  · have hlongest : Aligned longest qname := by simpa using hlongest
    have hlongestMem := List.mem_of_getElem? hget
    refine ⟨longest, hlongestMem, hlongest, fun other hother hal ↦ ?_⟩
    have hle := hmax other hother (by simpa using hal)
    exact (labels_suffix_iff htexts hother hlongestMem hal hlongest).mpr (by omega)

theorem labels_eq_of_byteTail (htexts : WireLengths texts)
    {left right : List UInt8} (hleft : left ∈ texts)
    (hright : right ∈ texts) (htl : ByteTail left qname) (htr : ByteTail right qname)
    (h : left.length = right.length) : domainLabels left = domainLabels right := by
  obtain ⟨hlengthL, hlabelsL⟩ := htexts left hleft
  obtain ⟨hlengthR, hlabelsR⟩ := htexts right hright
  refine encodeName_injective hlabelsL hlabelsR ?_
  refine (List.suffix_of_suffix_length_le htl htr ?_).eq_of_length ?_ <;> omega

/-- A domain that no other tail of the name exceeds is the longest aligned one exactly when the
bytes of the name tell the aligned domains apart from the others. -/
theorem isLongestAligned_iff (htexts : WireLengths texts)
    (hmem : text ∈ texts)
    (htail : ByteTail text qname)
    (hmax : ∀ other ∈ texts, ByteTail other qname → other.length ≤ text.length) :
    IsLongestAligned texts qname text ↔ ByteTailsAgree texts qname := by
  constructor
  · rintro ⟨haligned, hlongest⟩
    refine ⟨fun other hother hbytes hnot ↦ ⟨text, hmem, haligned, ?_⟩, fun other hother hlong ↦ ?_⟩
    · refine lt_of_le_of_ne (hmax other hother hbytes) fun hlength ↦ hnot ?_
      show domainLabels other <:+ qname
      rw [labels_eq_of_byteTail htexts hother hmem hbytes htail hlength]
      exact haligned
    · have hforth := hlong.2 text hmem haligned
      have hback := hlongest other hother hlong.1
      show encodeName (domainLabels other) <:+ _
      rw [hback.eq_of_length (le_antisymm hback.length_le hforth.length_le)]
      exact htail
  · rintro ⟨hshorter, hbytes⟩
    have hnotLonger : ∀ other ∈ texts, Aligned other qname → other.length ≤ text.length := by
      intro other hother hal
      obtain ⟨longest, hlongestMem, hlongest⟩ := exists_isLongestAligned htexts hother hal
      have hle := (labels_suffix_iff htexts hother hlongestMem hal hlongest.1).mp
        (hlongest.2 other hother hal)
      exact hle.trans (hmax longest hlongestMem (hbytes longest hlongestMem hlongest))
    have haligned : Aligned text qname := by
      by_contra hnot
      obtain ⟨other, hother, hal, hlt⟩ := hshorter text hmem htail hnot
      exact absurd (hnotLonger other hother hal) (not_le.mpr hlt)
    exact ⟨haligned, fun other hother hal ↦
      (labels_suffix_iff htexts hother hmem hal haligned).mpr (hnotLonger other hother hal)⟩

/-- The domain returned by `search_subdomnode` for a query name is the one the name belongs to
exactly when the bytes of the name tell the aligned domains apart from the others.
Assumes: every domain behind the head is configured with its text, and the bound passed reaches
behind the name, as the length of a whole packet does. -/
theorem searchSubdomnode_routedTo_iff {doms : List DomNode} {texts : List (List UInt8)}
    {qname : List (List UInt8)} {rest : List UInt8} {maxlen : ℕ}
    (hdoms : List.Forall₂ ConfiguredAs doms.tail texts)
    (hmaxlen : (encodeName qname).length < maxlen) :
    RoutedTo texts qname (searchSubdomnode doms (encodeName qname ++ 0 :: rest) maxlen) ↔
      ByteTailsAgree texts qname := by
  have hcstr := cstr_append_zero (encodeName qname) rest
  have htexts := wireLengths_of_configured hdoms
  have hwire : List.Forall₂ (fun d domain ↦ d.domain = some domain ∧ 0 ∉ domain ∧ domain ≠ [])
      doms.tail (texts.map fun text ↦ encodeName (domainLabels text)) := by
    rw [List.forall₂_map_right_iff]
    refine hdoms.imp fun d text h ↦ ?_
    obtain ⟨hd, hlength, hzero, -⟩ := h.spec
    exact ⟨hd, hzero, List.ne_nil_of_length_pos (by omega)⟩
  have hbound : (cstr (encodeName qname ++ 0 :: rest)).length < maxlen := by
    have hle := length_cstr_le (encodeName qname)
    rw [hcstr]
    omega
  rcases searchSubdomnode_spec hbound hwire with ⟨hresult, hnone⟩ | ⟨index, domain, hresult, hget,
    htail, hmax⟩
  · have hno : ∀ text ∈ texts, ¬ ByteTail text qname := by
      intro text hmem htail
      refine hnone _ (List.mem_map_of_mem hmem) ?_
      rwa [hcstr]
    rw [hresult]
    constructor
    · intro haligned
      exact ⟨fun text hmem htail ↦ absurd htail (hno text hmem),
        fun text hmem hlongest ↦ absurd hlongest.1 (haligned text hmem)⟩
    · rintro ⟨-, hbytes⟩ text hmem haligned
      obtain ⟨longest, hlongestMem, hlongest⟩ := exists_isLongestAligned htexts hmem haligned
      exact hno longest hlongestMem (hbytes longest hlongestMem hlongest)
  · rw [List.getElem?_map] at hget
    obtain ⟨text, htext, rfl⟩ := Option.map_eq_some_iff.mp hget
    have hmem := List.mem_of_getElem? htext
    rw [hcstr] at htail
    have hlengths : ∀ other ∈ texts, ByteTail other qname → other.length ≤ text.length := by
      intro other hother hbytes
      have hle := hmax _ (List.mem_map_of_mem hother) (by rwa [hcstr])
      rw [(htexts other hother).1, (htexts text hmem).1] at hle
      omega
    rw [← isLongestAligned_iff htexts hmem htail hlengths, hresult]
    show (∃ text', texts[index]? = some text' ∧ IsLongestAligned texts qname text') ↔ _
    rw [htext]
    simp

/-- The default domain and the domain `aa`, with the query name `www.aa`. -/
theorem searchSubdomnode_routedTo_iff_www :
    RoutedTo [[97, 97]] [[119, 119, 119], [97, 97]]
      (searchSubdomnode [configuredDomain none false [1],
      configuredDomain (some [2, 97, 97]) false [2]]
        [3, 119, 119, 119, 2, 97, 97, 0, 0, 1, 0, 1] 24) :=
  (searchSubdomnode_routedTo_iff
    (List.Forall₂.cons ⟨by decide, [2, 97, 97], by decide, by decide⟩ .nil)
    (by decide)).mpr ⟨by decide, fun text hmem _ ↦ by
      obtain rfl : text = [97, 97] := by simpa using hmem
      decide⟩

/-- A domain of 48 letters is also the tail of a single label of 49 letters that starts with the
character of code 48, which reads as the domain's length byte. -/
theorem digit_label_matches_mid_label :
    ConfiguredAs (configuredDomain (some (48 :: List.replicate 48 97)) false [2])
        (List.replicate 48 97) ∧
      ¬ RoutedTo [List.replicate 48 97] [48 :: List.replicate 48 97]
        (searchSubdomnode [configuredDomain none false [1],
            configuredDomain (some (48 :: List.replicate 48 97)) false [2]]
          (encodeName [48 :: List.replicate 48 97] ++ 0 :: [0, 1, 0, 1]) 67) := by
  have hresult : searchSubdomnode [configuredDomain none false [1],
      configuredDomain (some (48 :: List.replicate 48 97)) false [2]]
      (encodeName [48 :: List.replicate 48 97] ++ 0 :: [0, 1, 0, 1]) 67 = 1 := by decide
  refine ⟨⟨by decide, _, by decide, rfl⟩, ?_⟩
  rw [hresult]
  rintro ⟨text, htext, haligned, -⟩
  obtain rfl : List.replicate 48 97 = text := by simpa using htext
  exact absurd haligned (by decide)

end CrossBreeder.Dnrd
