import CrossBreeder.Dnrd.Routing
import Mathlib.Data.List.GetD

/-!
# The accesses of the name encoder

`make_cname` with its pointers, the memory from the allocated buffer on, and a record of the
positions it writes. `makeCname_safe_iff` says for which texts the function does what it should: the
empty text makes its assertion fail, a label of more than 63 characters is stored as it is, and a
text that is too long is refused only after its labels were written, up to the first empty one.

`cname2asc` is meant to turn the name into text again. It calls the decoder of packets with the
index 0, which the decoder takes for a position in the header and refuses, so that the text is
always the one for a malformed name (`cname2asc_makeCname_iff`).
-/

namespace CrossBreeder.Dnrd

open Foundation

/-! ### The function -/

/-- The pointer `cptr` relative to `cname`, the memory from `cname` on, and the positions written.
-/
structure Encoding where
  cptr : ℕ
  cname : ℕ → UInt8
  writes : List ℕ

/-- How `make_cname` ends: with a null pointer, a failed assertion, or the buffer. -/
inductive Ended
  | null
  | assertion
  | buffer
  deriving DecidableEq, Repr

namespace Encoding

/-- `*cptr = byte`. -/
def store (byte : UInt8) (s : Encoding) : Encoding :=
  { s with cname := Function.update s.cname s.cptr byte, writes := s.cptr :: s.writes }

/-- `*cptr++ = byte`. -/
def put (byte : UInt8) (s : Encoding) : Encoding := { s.store byte with cptr := s.cptr + 1 }

/-- `memcpy(cptr, tptr, diff); cptr += diff;`. -/
def copy (bytes : List UInt8) (s : Encoding) : Encoding := bytes.foldl (fun s byte ↦ s.put byte) s

/-- A label with its length in front, which is stored in a `char`. -/
def putLabel (label : List UInt8) (s : Encoding) : Encoding :=
  (s.put (UInt8.ofNat label.length)).copy label

/-- The end of `make_cname`. -/
def close (size : ℕ) (s : Encoding) : Ended × Encoding :=
  (if s.cptr = size + 1 then .buffer else .assertion, s.store 0)

/-- The bytes in front of `cptr`. -/
def bytes (s : Encoding) : List UInt8 := (List.range s.cptr).map s.cname

end Encoding

/-- The loop of `make_cname` and what follows it, with the pointers `end` and `tptr` as indices of
the text. -/
def encodeLoop (text : List UInt8) (maxlen : ℕ) : ℕ → ℕ → ℕ → Encoding → Option (Ended × Encoding)
  | 0, _, _, _ => none
  | fuel + 1, stop, tptr, s =>
    if text.getD stop 0 = 0 then some (s.close (strnlen text maxlen))
    else
      let stop := (findDot text tptr).getD (strnlen text maxlen)
      if stop ≤ tptr then some (.null, s)
      else encodeLoop text maxlen fuel stop (stop + 1)
        (s.putLabel ((text.drop tptr).take (stop - tptr)))

/-- `make_cname`, with the memory that is allocated. Each iteration takes at least one character of
the text. -/
def runMakeCname (text : List UInt8) (maxlen : ℕ) (memory : ℕ → UInt8) :
    Option (Ended × Encoding) :=
  encodeLoop text maxlen (text.length + 2) 0 0 ⟨0, memory, []⟩

/-- What `make_cname` should do: its assertion holds, it writes inside the buffer, and what it
returns is a name of labels of at most 63 characters, with the zero behind it. -/
structure CnameSafe (text : List UInt8) (maxlen : ℕ) (ended : Ended) (s : Encoding) : Prop where
  holds : ended ≠ .assertion
  writes : ∀ k ∈ s.writes, k < strnlen text maxlen + 2
  valid : ended = .buffer → ∃ labels : List (List UInt8), (∀ label ∈ labels, 1 ≤ label.length ∧
    label.length ≤ 63) ∧
    (List.range (strnlen text maxlen + 2)).map s.cname = encodeName labels ++ [0]

/-! ### Writing -/

namespace Encoding

variable (s : Encoding)

@[simp] theorem put_cptr (byte : UInt8) : (s.put byte).cptr = s.cptr + 1 := rfl

@[simp] theorem put_writes (byte : UInt8) : (s.put byte).writes = s.cptr :: s.writes := rfl

@[simp] theorem put_bytes (byte : UInt8) : (s.put byte).bytes = s.bytes ++ [byte] := by
  show (List.range (s.cptr + 1)).map (Function.update s.cname s.cptr byte) = _
  rw [List.range_succ, List.map_append, List.map_singleton, Function.update_self, bytes]
  congr 1
  refine List.map_congr_left fun k hk ↦ Function.update_of_ne ?_ _ _
  rw [List.mem_range] at hk
  omega

@[simp] theorem store_bytes (byte : UInt8) : (s.store byte).bytes = s.bytes := by
  refine List.map_congr_left fun k hk ↦ Function.update_of_ne ?_ _ _
  rw [List.mem_range] at hk
  exact Nat.ne_of_lt hk

theorem copy_spec (label : List UInt8) (s : Encoding) :
    (s.copy label).cptr = s.cptr + label.length ∧ (s.copy label).bytes = s.bytes ++ label ∧
      ∀ k, k ∈ (s.copy label).writes ↔ k ∈ s.writes ∨ s.cptr ≤ k ∧ k < s.cptr + label.length := by
  induction label generalizing s with
  | nil => exact ⟨rfl, by simp [copy], fun k ↦ by
      rw [List.length_nil, Nat.add_zero]
      exact ⟨Or.inl, fun h ↦ h.elim id fun hk ↦ absurd hk.1 (by omega)⟩⟩
  | cons byte label ih =>
    obtain ⟨hcptr, hbytes, hwrites⟩ := ih (s.put byte)
    rw [copy, List.foldl_cons, ← copy]
    refine ⟨?_, ?_, fun k ↦ ?_⟩
    · rw [hcptr, put_cptr, List.length_cons]
      omega
    · rw [hbytes, put_bytes, List.append_assoc, List.singleton_append]
    · rw [hwrites, put_cptr, put_writes, List.mem_cons, List.length_cons]
      by_cases hk : k ∈ s.writes
      · simp [hk]
      · simp only [hk, false_or, or_false]
        omega

theorem putLabel_spec (label : List UInt8) :
    (s.putLabel label).cptr = s.cptr + label.length + 1 ∧
      (s.putLabel label).bytes = s.bytes ++ UInt8.ofNat label.length :: label ∧
      ∀ k, k ∈ (s.putLabel label).writes ↔ k ∈ s.writes ∨ s.cptr ≤ k ∧
      k < s.cptr + label.length + 1 := by
  obtain ⟨hcptr, hbytes, hwrites⟩ := copy_spec label (s.put (UInt8.ofNat label.length))
  refine ⟨?_, ?_, fun k ↦ ?_⟩
  · rw [putLabel, hcptr, put_cptr]
    omega
  · rw [putLabel, hbytes, put_bytes, List.append_assoc, List.singleton_append]
  · rw [putLabel, hwrites, put_cptr, put_writes, List.mem_cons]
    by_cases hk : k ∈ s.writes
    · simp [hk]
    · simp only [hk, false_or, or_false]
      omega

end Encoding

/-! ### The labels of the text -/

/-- What the loop does with the labels from `tptr` on: all but the last end at a dot, and the last
one ends where the text or its first `maxlen` characters end. -/
def labelsRun (text : List UInt8) (maxlen : ℕ) : List (List UInt8) → ℕ → Encoding → Ended × Encoding
  | [], _, s => (.null, s)
  | [label], tptr, s =>
    if strnlen text maxlen ≤ tptr then (.null, s)
    else if text.length ≤ maxlen then (s.putLabel label).close (strnlen text maxlen)
    else (.null, s.putLabel (label.take (strnlen text maxlen - tptr)))
  | label :: next :: rest, tptr, s =>
    if label = [] then (.null, s)
    else labelsRun text maxlen (next :: rest) (tptr + label.length + 1) (s.putLabel label)

theorem domainLabels_ne_nil (text : List UInt8) : domainLabels text ≠
    [] := List.splitOn_ne_nil 46 text

theorem encodeLoop_eq {text : List UInt8} {maxlen : ℕ} (hzero : 0 ∉ text) (fuel : ℕ) :
    ∀ {stop tptr : ℕ} (s : Encoding), stop < text.length → tptr ≤ text.length →
      text.length + 1 < fuel + tptr →
      encodeLoop text maxlen fuel stop tptr s = some
      (labelsRun text maxlen (domainLabels (text.drop tptr)) tptr s) := by
  have hstrnlen : strnlen text maxlen = min text.length maxlen := by
    rw [strnlen_eq_min, cstr_of_zero_notMem hzero]
  have hchar : ∀ k < text.length, text.getD k 0 ≠ 0 := by
    intro k hk heq
    rw [List.getD_eq_getElem _ _ hk] at heq
    exact hzero (heq ▸ List.getElem_mem hk)
  induction fuel with
  | zero =>
    intro stop tptr s _ htptr hfuel
    omega
  | succ fuel ih =>
    intro stop tptr s hstop htptr hfuel
    rw [encodeLoop, if_neg (hchar stop hstop)]
    cases hdot : findDot text tptr with
    | some dot =>
      obtain ⟨hstart, hlength, -, -⟩ := findDot_eq_some hdot
      obtain ⟨next, rest, hrest⟩ :=
        List.exists_cons_of_ne_nil (domainLabels_ne_nil (text.drop (dot + 1)))
      have hlabel : ((text.drop tptr).take (dot - tptr)).length = dot - tptr := by
        rw [List.length_take, List.length_drop]
        omega
      simp only [Option.getD_some]
      rw [domainLabels_drop_of_dot hdot, hrest, labelsRun]
      by_cases hempty : dot ≤ tptr
      · rw [if_pos hempty, if_pos (List.length_eq_zero_iff.mp (by omega))]
      · rw [if_neg hempty, if_neg fun hnil ↦
          hempty (by rw [hnil] at hlabel; simp only [List.length_nil] at hlabel; omega),
          ih _ hlength
            (by omega) (by omega), hrest, hlabel, show tptr + (dot - tptr) + 1 = dot + 1 by omega]
    | none =>
      have hfree := findDot_eq_none hdot
      have hlength : (text.drop tptr).length = text.length - tptr := List.length_drop ..
      simp only [Option.getD_none]
      rw [domainLabels, List.splitOn_eq_singleton hfree, labelsRun]
      by_cases hempty : strnlen text maxlen ≤ tptr
      · rw [if_pos hempty, if_pos hempty]
      · rw [if_neg hempty, if_neg hempty]
        obtain ⟨fuel, rfl⟩ : ∃ rest, fuel = rest + 1 := ⟨fuel - 1, by omega⟩
        rw [encodeLoop]
        by_cases hshort : text.length ≤ maxlen
        · have hend : strnlen text maxlen = text.length := by omega
          rw [if_pos hshort, hend,
            List.take_of_length_le (by omega), if_pos (List.getD_eq_default _ _ le_rfl)]
        · have hend : strnlen text maxlen = maxlen := by omega
          -- the bound cut the text short: the next iteration starts behind it and finds no label
          rw [if_neg hshort, hend, if_neg (hchar maxlen (by omega)),
            findDot_eq_none_of_le hfree (by omega : tptr ≤ maxlen + 1)]
          simp

theorem runMakeCname_eq {text : List UInt8} {maxlen : ℕ} (hzero : 0 ∉ text) (htext : text ≠ [])
    (memory : ℕ → UInt8) :
    runMakeCname text maxlen memory = some
      (labelsRun text maxlen (domainLabels text) 0 ⟨0, memory, []⟩) := by
  have hpos := List.length_pos_of_ne_nil htext
  rw [runMakeCname, encodeLoop_eq hzero _ _ hpos (Nat.zero_le _) (by omega), List.drop_zero]

/-! ### What is written -/

variable {text : List UInt8} {maxlen : ℕ}

theorem mem_writes_labelsRun (labels : List (List UInt8)) :
    ∀ {tptr : ℕ} {s : Encoding} {k : ℕ}, k ∈ s.writes →
      k ∈ (labelsRun text maxlen labels tptr s).2.writes := by
  induction labels with
  | nil => exact id
  | cons label rest ih =>
    intro tptr s k hk
    have hput : ∀ written, k ∈ (s.putLabel written).writes := fun written ↦
      (s.putLabel_spec written).2.2 k |>.mpr (Or.inl hk)
    cases rest with
    | nil =>
      rw [labelsRun]
      split_ifs
      · exact hk
      · exact List.mem_cons_of_mem _ (hput _)
      · exact hput _
    | cons next rest =>
      rw [labelsRun]
      split_ifs
      · exact hk
      · exact ih (hput _)

theorem mem_writes_of_front {back : List (List UInt8)} (hback : back ≠ [])
    (front : List (List UInt8)) :
    ∀ {tptr : ℕ} {s : Encoding}, s.cptr = tptr → front ≠ [] → [] ∉ front →
      tptr + (dotted front).length - 1 ∈
      (labelsRun text maxlen (front ++ back) tptr s).2.writes := by
  induction front with
  | nil => simp
  | cons label front ih =>
    intro tptr s hcptr _ hfront
    obtain ⟨hlabel, hfront⟩ := not_or.mp (mt List.mem_cons.mpr hfront)
    obtain ⟨next, rest, hrest⟩ : ∃ next rest, front ++ back = next :: rest :=
      List.exists_cons_of_ne_nil (by simp [hback])
    rw [List.cons_append, hrest, labelsRun, if_neg fun hnil ↦ hlabel hnil.symm, ← hrest]
    obtain ⟨hnext, -, hwrites⟩ := s.putLabel_spec label
    cases front with
    | nil =>
      refine mem_writes_labelsRun _ ((hwrites _).mpr (Or.inr ?_))
      simp only [dotted_cons, dotted_nil, List.length_append, List.length_singleton]
      omega
    | cons other front =>
      have hmem := @ih (tptr + label.length + 1) (s.putLabel label) (by omega) (by simp) hfront
      rw [dotted_cons, List.length_append, List.length_cons]
      rwa [show tptr + (label.length + ((dotted (other :: front)).length + 1)) - 1 =
        tptr + label.length + 1 + (dotted (other :: front)).length - 1 by omega]

/-- The writes stay inside the buffer if each beginning of labels, none of them empty and each with
its dot, does. -/
theorem writes_labelsRun_lt (hsize : strnlen text maxlen = min text.length maxlen)
    (labels : List (List UInt8)) :
    ∀ {tptr : ℕ} {s : Encoding}, s.cptr = tptr → tptr + (dotted labels).length = text.length + 1 →
      (∀ front back, labels = front ++ back → back ≠ [] → [] ∉ front →
        tptr + (dotted front).length ≤ strnlen text maxlen + 2) →
      (∀ k ∈ s.writes, k < strnlen text maxlen + 2) →
      ∀ k ∈ (labelsRun text maxlen labels tptr s).2.writes, k < strnlen text maxlen + 2 := by
  induction labels with
  | nil => exact fun _ _ _ hwrites ↦ hwrites
  | cons label rest ih =>
    intro tptr s hcptr hlength hfits hbefore
    have hput : ∀ written : List UInt8, tptr + written.length < strnlen text maxlen + 2 →
        ∀ k ∈ (s.putLabel written).writes, k < strnlen text maxlen + 2 := by
      intro written hwritten k hk
      rcases ((s.putLabel_spec written).2.2 k).mp hk with hk | hk
      · exact hbefore k hk
      · omega
    cases rest with
    | nil =>
      simp only [dotted_cons, dotted_nil, List.length_append, List.length_singleton] at hlength
      rw [labelsRun]
      split_ifs with hempty hshort
      · exact hbefore
      · intro k hk
        rcases List.mem_cons.mp hk with rfl | hk
        · rw [(s.putLabel_spec label).1]
          omega
        · exact hput label (by omega) k hk
      · refine hput _ ?_
        rw [List.length_take]
        omega
    | cons next rest =>
      rw [labelsRun]
      split_ifs with hempty
      · exact hbefore
      · rw [dotted_cons, List.length_append, List.length_cons] at hlength
        have hfirst := hfits [label] (next :: rest) rfl (by simp) (by simpa using hempty)
        simp only [dotted_cons, dotted_nil, List.length_append, List.length_singleton] at hfirst
        refine ih (by rw [(s.putLabel_spec label).1]; omega) (by omega) ?_ (hput label (by omega))
        intro front back hsplit hback hfront
        have hnext := hfits (label :: front) back (by rw [hsplit, List.cons_append]) hback
          (by simpa using ⟨hempty, hfront⟩)
        rw [dotted_cons, List.length_append, List.length_cons] at hnext
        omega

theorem labelsRun_of_long (hlong : maxlen < text.length) (labels : List (List UInt8)) :
    ∀ {tptr : ℕ} {s : Encoding}, (labelsRun text maxlen labels tptr s).1 = .null := by
  induction labels with
  | nil => exact rfl
  | cons label rest ih =>
    intro tptr s
    cases rest with
    | nil =>
      rw [labelsRun, if_neg (show ¬ text.length ≤ maxlen by omega)]
      split_ifs <;> rfl
    | cons next rest =>
      rw [labelsRun]
      split_ifs
      · rfl
      · exact ih

/-- A text that fits is refused if it has an empty label, and is written in wire form otherwise. -/
theorem labelsRun_of_short (hsize : strnlen text maxlen = text.length)
    (hshort : text.length ≤ maxlen) (labels : List (List UInt8)) (hlabels : labels ≠ []) :
    ∀ {tptr : ℕ} {s : Encoding}, s.cptr = tptr → tptr + (dotted labels).length = text.length + 1 →
      if [] ∈ labels then (labelsRun text maxlen labels tptr s).1 = .null
      else (labelsRun text maxlen labels tptr s).1 = .buffer ∧
        (labelsRun text maxlen labels tptr s).2.bytes = s.bytes ++ encodeName labels ∧
        (labelsRun text maxlen labels tptr s).2.cptr = text.length + 1 ∧
        (labelsRun text maxlen labels tptr s).2.cname (text.length + 1) = 0 := by
  induction labels with
  | nil => exact absurd rfl hlabels
  | cons label rest ih =>
    intro tptr s hcptr hlength
    obtain ⟨hnext, hbytes, -⟩ := s.putLabel_spec label
    cases rest with
    | nil =>
      simp only [dotted_cons, dotted_nil, List.length_append, List.length_singleton] at hlength
      rw [labelsRun, hsize, if_pos hshort]
      by_cases hempty : label = []
      · rw [if_pos
          (by simp [hempty]), if_pos (by simp only [hempty, List.length_nil] at hlength; omega)]
      · have hpos := List.length_pos_of_ne_nil hempty
        have hend : (s.putLabel label).cptr = text.length + 1 := by omega
        rw [if_neg (by simpa using hempty), if_neg (by omega), Encoding.close, if_pos hend]
        refine ⟨rfl, ?_, hend, ?_⟩
        · rw [Encoding.store_bytes, hbytes, encodeName_cons, encodeName_nil, List.append_nil]
        · show Function.update (s.putLabel label).cname (s.putLabel label).cptr 0
            (text.length + 1) = 0
          rw [hend, Function.update_self]
    | cons next rest =>
      rw [dotted_cons, List.length_append, List.length_cons] at hlength
      rw [labelsRun]
      by_cases hempty : label = []
      · rw [if_pos (by simp [hempty]), if_pos hempty]
      · have hrest :=
          @ih (by simp) (tptr + label.length + 1) (s.putLabel label) (by omega) (by omega)
        have hmem : [] ∈ label :: next :: rest ↔ [] ∈ next :: rest := by
          rw [List.mem_cons, or_iff_right fun hnil ↦ hempty hnil.symm]
        rw [if_neg hempty]
        simp only [hmem]
        split_ifs at hrest ⊢ with hnil
        · exact hrest
        · refine ⟨hrest.1, ?_, hrest.2.2⟩
          rw [hrest.2.1, hbytes, encodeName_cons label, List.append_assoc, List.cons_append]

/-! ### The whole function -/

theorem dotted_domainLabels (text : List UInt8) : dotted (domainLabels text) = text ++ [46] := by
  rw [dotted_eq_intercalate (domainLabels_ne_nil text), domainLabels, List.intercalate_splitOn]

theorem dotted_append (front back : List (List UInt8)) :
    dotted (front ++ back) = dotted front ++ dotted back := by
  simp [dotted]

theorem length_dotted_pos {labels : List (List UInt8)} (hlabels : labels ≠ []) :
    0 < (dotted labels).length := by
  obtain ⟨label, rest, rfl⟩ := List.exists_cons_of_ne_nil hlabels
  rw [dotted_cons, List.length_append, List.length_cons]
  omega

theorem length_le_of_mem_domainLabels {label : List UInt8} (hlabel : label ∈ domainLabels text) :
    label.length ≤ text.length := by
  obtain ⟨front, back, hsplit⟩ := List.append_of_mem hlabel
  have hsum := congrArg List.length (dotted_domainLabels text)
  rw [hsplit, dotted_append, dotted_cons] at hsum
  simp only [List.length_append, List.length_cons, List.length_nil] at hsum
  omega

theorem strnlen_of_zero_notMem (hzero : 0 ∉ text) (maxlen : ℕ) :
    strnlen text maxlen = min text.length maxlen := by
  rw [strnlen_eq_min, cstr_of_zero_notMem hzero]

/-- How the function ends, with the contents of the buffer. -/
theorem runMakeCname_spec (hzero : 0 ∉ text) (maxlen : ℕ) (memory : ℕ → UInt8) :
    ∃ ended s, runMakeCname text maxlen memory = some (ended, s) ∧
      if text = [] then ended = .assertion
      else if text.length ≤ maxlen ∧ [] ∉ domainLabels text then
        ended = .buffer ∧ s.bytes = encodeName (domainLabels text) ∧ s.cptr = text.length + 1 ∧
          s.cname (text.length + 1) = 0
      else ended = .null := by
  have hsize := strnlen_of_zero_notMem hzero maxlen
  by_cases htext : text = []
  · subst htext
    exact ⟨_, _, rfl, by rw [if_pos rfl, hsize]; rfl⟩
  · refine ⟨_, _, runMakeCname_eq hzero htext memory, ?_⟩
    rw [if_neg htext]
    by_cases hshort : text.length ≤ maxlen
    · have hlength : 0 + (dotted (domainLabels text)).length = text.length + 1 := by
        rw [dotted_domainLabels, List.length_append, List.length_singleton, Nat.zero_add]
      have hspec := @labelsRun_of_short text maxlen (by omega) hshort (domainLabels text)
        (domainLabels_ne_nil text) 0 ⟨0, memory, []⟩ rfl hlength
      split_ifs at hspec with hnil
      · rw [if_neg fun h ↦ h.2 hnil]
        exact hspec
      · rw [if_pos ⟨hshort, hnil⟩]
        exact hspec
    · rw [if_neg fun h ↦ hshort h.1]
      exact labelsRun_of_long (by omega) _

theorem makeCnameLoop_of_labels (hzero : 0 ∉ text) (hshort : text.length ≤ maxlen) (fuel : ℕ) :
    ∀ {tptr : ℕ} {out : List UInt8}, tptr ≤ text.length → text.length < fuel + tptr →
      [] ∉ domainLabels (text.drop tptr) →
      makeCnameLoop text maxlen fuel tptr out = some
      (out ++ encodeName (domainLabels (text.drop tptr))) := by
  induction fuel with
  | zero =>
    intro tptr out htptr hfuel
    omega
  | succ fuel ih =>
    intro tptr out htptr hfuel hlabels
    rw [makeCnameLoop]
    cases hdot : findDot text tptr with
    | some dot =>
      obtain ⟨hstart, hlength, -, -⟩ := findDot_eq_some hdot
      have hlabel : ((text.drop tptr).take (dot - tptr)).length = dot - tptr := by
        rw [List.length_take, List.length_drop]
        omega
      rw [domainLabels_drop_of_dot hdot] at hlabels ⊢
      obtain ⟨hfirst, hrest⟩ := not_or.mp (mt List.mem_cons.mpr hlabels)
      have hpos := List.length_pos_of_ne_nil fun hnil ↦ hfirst hnil.symm
      simp only [Option.getD_some]
      rw [if_neg
        (by omega), if_neg (by omega), ih (by omega) (by omega) hrest, encodeName_cons, hlabel,
        List.append_assoc, List.cons_append]
    | none =>
      have hlast : domainLabels (text.drop tptr) = [text.drop tptr] :=
        List.splitOn_eq_singleton (findDot_eq_none hdot)
      rw [hlast] at hlabels ⊢
      have hpos := List.length_pos_of_ne_nil fun hnil ↦ hlabels (List.mem_singleton.mpr hnil.symm)
      have hlength : (text.drop tptr).length = text.length - tptr := List.length_drop ..
      simp only [Option.getD_none]
      rw [strnlen_of_zero_notMem hzero, Nat.min_eq_left hshort, if_neg (by omega), if_pos le_rfl,
        List.take_of_length_le
          (by omega), encodeName_cons, encodeName_nil, List.append_nil, hlength]

theorem length_encodeName (labels : List (List UInt8)) :
    (encodeName labels).length = (dotted labels).length := by
  induction labels with
  | nil => rfl
  | cons label labels ih =>
    rw [encodeName_cons, dotted_cons, List.length_cons, List.length_append, List.length_append,
      List.length_cons, ih, Nat.add_assoc]

theorem makeCname_eq (hzero : 0 ∉ text) (maxlen : ℕ) :
    makeCname text maxlen =
      if text = [] then .error .assertion
      else if text.length ≤ maxlen ∧
      [] ∉ domainLabels text then .ok (some (encodeName (domainLabels text)))
      else .ok none := by
  by_cases htext : text = []
  · subst htext
    simp [makeCname]
  · rw [if_neg htext]
    by_cases hfits : text.length ≤ maxlen ∧ [] ∉ domainLabels text
    · have hlength : (encodeName (domainLabels text)).length = text.length + 1 := by
        rw [length_encodeName, dotted_domainLabels, List.length_append, List.length_singleton]
      have hloop :=
        @makeCnameLoop_of_labels text maxlen hzero hfits.1 (text.length + 1) 0 [] (Nat.zero_le _)
        (by omega) hfits.2
      rw [List.drop_zero, List.nil_append] at hloop
      simp only [makeCname, if_neg htext, hloop]
      rw [if_pos hfits,
        if_pos (by rw [hlength, strnlen_of_zero_notMem hzero, Nat.min_eq_left hfits.1])]
    · rw [if_neg hfits]
      cases hloop : makeCnameLoop text maxlen (text.length + 1) 0 [] with
      | none => simp only [makeCname, if_neg htext, hloop]
      | some out =>
        obtain ⟨hshort, -, hlabels⟩ := makeCnameLoop_spec hzero _ hloop
        rw [List.drop_zero] at hlabels
        exact absurd ⟨hshort, fun hnil ↦ hlabels [] hnil rfl⟩ hfits

/-- `makeCname` returns what the function leaves in the buffer. -/
theorem runMakeCname_refines (hzero : 0 ∉ text) (maxlen : ℕ) (memory : ℕ → UInt8) :
    ∃ ended s, runMakeCname text maxlen memory = some (ended, s) ∧
      makeCname text maxlen =
        match ended with
        | .null => .ok none
        | .assertion => .error .assertion
        | .buffer => .ok (some s.bytes) := by
  obtain ⟨ended, s, hrun, hspec⟩ := runMakeCname_spec hzero maxlen memory
  refine ⟨ended, s, hrun, ?_⟩
  rw [makeCname_eq hzero]
  split_ifs at hspec ⊢ with htext hfits
  · rw [hspec]
  · obtain ⟨rfl, hbytes, -⟩ := hspec
    rw [← hbytes]
  · rw [hspec]

theorem runMakeCname_refines_dot : (runMakeCname [97, 46, 98] 9 fun _ ↦ 7).isSome := by
  obtain ⟨_, _, hrun, -⟩ := @runMakeCname_refines [97, 46, 98] (by decide) 9 fun _ ↦ 7
  rw [hrun]
  rfl

/-- `make_cname` returns null or a name of at most 63 characters a label in a buffer of the size it
has allocated, writes nothing behind that buffer and does not fail its assertion, if and only if the
text is not empty; if it fits and has no empty label, no label is longer than 63 characters; and if
it is too long, the labels before the first empty one and before the last end, each with its dot,
within two characters behind the bound. Assumes: the text is a C string, and the bound is that of
the option, or another one whose lengths fit a `char`. -/
theorem makeCname_safe_iff (hzero : 0 ∉ text) (hmaxlen : maxlen < 256) (memory : ℕ → UInt8) :
    ∃ ended s, runMakeCname text maxlen memory = some (ended, s) ∧
      (CnameSafe text maxlen ended s ↔
        text ≠ [] ∧
        (text.length ≤ maxlen → [] ∉ domainLabels text → ∀ label ∈ domainLabels text,
        label.length ≤ 63) ∧
        (maxlen < text.length → ∀ front back, domainLabels text = front ++ back →
        back ≠ [] → [] ∉ front →
          (dotted front).length ≤ maxlen + 2)) := by
  have hsize := strnlen_of_zero_notMem hzero maxlen
  have hdotted : (dotted (domainLabels text)).length = text.length + 1 := by
    rw [dotted_domainLabels, List.length_append, List.length_singleton]
  obtain ⟨ended, s, hrun, hspec⟩ := runMakeCname_spec hzero maxlen memory
  refine ⟨ended, s, hrun, ?_⟩
  by_cases htext : text = []
  · rw [if_pos htext] at hspec
    exact iff_of_false (fun hsafe ↦ hsafe.holds hspec) fun h ↦ h.1 htext
  · rw [if_neg htext] at hspec
    have hlabels : labelsRun text maxlen (domainLabels text) 0 ⟨0, memory, []⟩ = (ended, s) :=
      Option.some.inj ((runMakeCname_eq hzero htext memory).symm.trans hrun)
    have hinside := @writes_labelsRun_lt text maxlen hsize (domainLabels text) 0 ⟨0, memory, []⟩ rfl
      (by rw [hdotted, Nat.zero_add])
    rw [hlabels] at hinside
    by_cases hshort : text.length ≤ maxlen
    · have hwrites : ∀ k ∈ s.writes, k < strnlen text maxlen + 2 := by
        refine hinside (fun front back hsplit hback _ ↦ ?_) (by simp)
        -- a beginning of the labels leaves room for the rest
        have hsum := congrArg (fun labels ↦ (dotted labels).length) hsplit
        have hrest := length_dotted_pos hback
        simp only [hdotted, dotted_append, List.length_append] at hsum
        omega
      by_cases hnil : [] ∈ domainLabels text
      · rw [if_neg fun h ↦ h.2 hnil] at hspec
        refine iff_of_true
          ⟨by simp [hspec], hwrites, by simp [hspec]⟩ ⟨htext, fun _ hfree ↦ absurd hnil hfree, ?_⟩
        exact fun hlong ↦ absurd hshort (by omega)
      · rw [if_pos ⟨hshort, hnil⟩] at hspec
        obtain ⟨rfl, hbytes, hcptr, hzero'⟩ := hspec
        have hbuffer : (List.range (strnlen text maxlen + 2)).map s.cname =
          encodeName (domainLabels text) ++ [0] := by
          rw [hsize, Nat.min_eq_left hshort, List.range_succ, List.map_append, List.map_singleton,
            hzero', ← hbytes, Encoding.bytes, hcptr]
        constructor
        · intro hsafe
          refine ⟨htext, fun _ _ ↦ ?_, fun hlong ↦ absurd hshort (by omega)⟩
          obtain ⟨labels, hvalid, hname⟩ := hsafe.valid rfl
          rw [hbuffer] at hname
          have hsame : domainLabels text = labels := by
            refine encodeName_injective (fun label hlabel ↦ ?_) (fun label hlabel ↦
              ?_) (List.append_cancel_right hname)
            · have hle := length_le_of_mem_domainLabels hlabel
              omega
            · have hle := hvalid label hlabel
              omega
          exact fun label hlabel ↦ (hvalid label (hsame ▸ hlabel)).2
        · rintro ⟨-, hlong, -⟩
          refine ⟨by simp, hwrites, fun _ ↦ ⟨domainLabels text, fun label hlabel ↦
            ⟨?_, hlong hshort hnil label hlabel⟩, hbuffer⟩⟩
          exact List.length_pos_of_ne_nil fun hempty ↦ hnil (hempty ▸ hlabel)
    · rw [if_neg fun h ↦ hshort h.1] at hspec
      rw [hsize, Nat.min_eq_right (by omega)] at hinside
      constructor
      · intro hsafe
        refine ⟨htext, fun h ↦ absurd h hshort, fun _ front back hsplit hback hfront ↦ ?_⟩
        by_cases hempty : front = []
        · simp [hempty]
        · have hmem :=
            @mem_writes_of_front text maxlen back hback front 0 ⟨0, memory, []⟩ rfl hempty hfront
          rw [← hsplit, hlabels] at hmem
          have hlt := hsafe.writes _ hmem
          omega
      · rintro ⟨-, -, hfits⟩
        refine ⟨by simp [hspec], ?_, by simp [hspec]⟩
        rw [hsize, Nat.min_eq_right (by omega)]
        refine hinside (fun front back hsplit hback hfront ↦ ?_) (by simp)
        rw [Nat.zero_add]
        exact hfits (by omega) front back hsplit hback hfront

/-- The text `ab.c` with the bound of the option. -/
theorem makeCname_safe_short :
    ∃ ended s, runMakeCname [97, 98, 46, 99] 200 (fun _ ↦ 7) = some (ended, s) ∧ CnameSafe
      [97, 98, 46, 99] 200 ended s := by
  obtain ⟨ended, s, hrun, hsafe⟩ :=
    @makeCname_safe_iff [97, 98, 46, 99] 200 (by decide) (by decide) (fun _ ↦ 7)
  exact ⟨ended, s, hrun, hsafe.mpr ⟨by decide, by decide, fun hlong ↦ absurd hlong (by decide)⟩⟩

/-- The empty text makes the assertion fail, a label of 64 characters is accepted, and behind the
first dot of 202 characters and a dot the function has written behind a buffer of 202 bytes. -/
theorem makeCname_unsafe :
    (∃ s, runMakeCname [] 200 (fun _ ↦ 7) = some (.assertion, s)) ∧
      (∃ s, runMakeCname (List.replicate 64 97) 200 (fun _ ↦ 7) = some (.buffer, s) ∧
      s.cname 0 = 64) ∧
      ∃ s, runMakeCname (List.replicate 202 97 ++ [46]) 200 (fun _ ↦ 7) = some (.null, s) ∧
      202 ∈ s.writes := by
  have hlabel : (runMakeCname (List.replicate 64 97) 200 (fun _ ↦ 7)).any
      (fun result ↦ result.1 = .buffer ∧ result.2.cname 0 = 64) = true := by decide +kernel
  have hlong : (runMakeCname (List.replicate 202 97 ++ [46]) 200 (fun _ ↦ 7)).any
      (fun result ↦ result.1 = .null ∧ 202 ∈ result.2.writes) = true := by decide +kernel
  obtain ⟨⟨ended, s⟩, hrun, htest⟩ := (Option.any_eq_true _ _).mp hlabel
  obtain ⟨⟨ended', s'⟩, hrun', htest'⟩ := (Option.any_eq_true _ _).mp hlong
  obtain ⟨rfl, hbyte⟩ := of_decide_eq_true htest
  obtain ⟨rfl, hmem⟩ := of_decide_eq_true htest'
  exact ⟨⟨_, rfl⟩, ⟨s, hrun, hbyte⟩, s', hrun', hmem⟩

/-! ### Back to text -/

def literal (text : String) : List UInt8 := text.toList.map fun char ↦ UInt8.ofNat char.toNat

/-- `snprintf_cname` for a buffer with given contents: its return value and the contents it leaves.
-/
def snprintfCname (msg : Packet) (index destsize : ℕ) (buf : List UInt8) : ℤ × List UInt8 :=
  match getObjname msg index destsize with
  | none => (-1, (literal "(malformatted)").take destsize)
  | some (dest, _) => (0, if dest = [] then buf else dest.dropLast)

/-- `cname2asc`, with the contents of its static buffer. -/
def cname2asc (cname : Option (List UInt8)) (buf : List UInt8) : List UInt8 :=
  match cname with
  | none => literal "(default)"
  | some cname => (snprintfCname (cstr cname) 0 256 buf).2

theorem cname2asc_some (cname buf : List UInt8) :
    cname2asc (some cname) buf = literal "(malformatted)" := by
  have hheader : getObjname (cstr cname) 0 256 = none := if_pos (Or.inl (by decide))
  simp only [cname2asc, snprintfCname, hheader]
  decide

/-- The way from a text of labels to a name and back leads to the same text exactly for the two
texts that `cname2asc` uses in place of a name: that for a malformed name, and that for the default
domain if the text exceeds the bound. -/
theorem cname2asc_makeCname_iff (hzero : 0 ∉ text)
    (hlabels : ∀ label ∈ domainLabels text, 1 ≤ label.length ∧ label.length ≤ 63)
    (hlength : text.length < 255) (maxlen : ℕ) (buf : List UInt8) :
    (∃ cname, makeCname text maxlen = .ok cname ∧ cname2asc cname buf = text) ↔
      (text.length ≤ maxlen ∧ text = literal "(malformatted)") ∨
      (maxlen < text.length ∧ text = literal "(default)") := by
  have hnil : [] ∉ domainLabels text := fun hmem ↦ absurd (hlabels [] hmem).1 (by simp)
  have htext : text ≠ [] := by
    rintro rfl
    exact hnil (by decide)
  rw [makeCname_eq hzero, if_neg htext]
  by_cases hshort : text.length ≤ maxlen
  · rw [if_pos ⟨hshort, hnil⟩]
    constructor
    · rintro ⟨cname, hcname, hasc⟩
      obtain rfl := Except.ok.inj hcname
      rw [cname2asc_some] at hasc
      exact Or.inl ⟨hshort, hasc.symm⟩
    · rintro (⟨-, heq⟩ | ⟨hlong, -⟩)
      · exact ⟨_, rfl, (cname2asc_some _ _).trans heq.symm⟩
      · omega
  · rw [if_neg fun h ↦ hshort h.1]
    constructor
    · rintro ⟨cname, hcname, hasc⟩
      obtain rfl := Except.ok.inj hcname
      exact Or.inr ⟨by omega, hasc.symm⟩
    · rintro (⟨hle, -⟩ | ⟨-, heq⟩)
      · exact absurd hle hshort
      · exact ⟨_, rfl, heq.symm⟩

/-- The one text of this length that comes back. -/
theorem cname2asc_makeCname_malformatted :
    ∃ cname, makeCname (literal "(malformatted)") 200 = .ok cname ∧ cname2asc cname
      [] = literal "(malformatted)" :=
  (@cname2asc_makeCname_iff (literal "(malformatted)")
    (by decide) (by decide) (by decide) 200 []).mpr (Or.inl ⟨by decide, rfl⟩)

/-- The text `ab.c` comes back as the one for a malformed name. -/
theorem cname2asc_makeCname_ab :
    makeCname [97, 98, 46, 99] 200 = .ok (some [2, 97, 98, 1, 99]) ∧
      cname2asc (some [2, 97, 98, 1, 99]) [] = literal "(malformatted)" ∧
      cname2asc (some [2, 97, 98, 1, 99]) [] ≠ [97, 98, 46, 99] := by
  decide

end CrossBreeder.Dnrd
