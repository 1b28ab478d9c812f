import CrossBreeder.Dnsc.NameDecoding
import CrossBreeder.Foundation.SeparatedText

/-!
# Names there and back

`ChangetoDnsNameFormat` writes each label of a host name with its length before it, and `ReadName`
undoes that, also where the end of the name is stored elsewhere and a pointer leads there
(`readName_changetoDnsNameFormat`).
-/

namespace CrossBreeder.Dnsc

open Foundation (Returns terminated terminated_cons dropLast_terminated_append
  dropLast_terminated_cons)

/-! ### The encoder -/

/-- The round of `ChangetoDnsNameFormat` at an index, with `lock` and what is written so far. -/
def changeRound (host : List UInt8) (s : ℕ × List UInt8) (i : ℕ) : ℕ × List UInt8 :=
  if host[i]? = some 46 then (i + 1, s.2 ++ UInt8.ofNat (i - s.1) :: (host.drop s.1).take (i - s.1))
    else s

/-- `ChangetoDnsNameFormat`, which puts a dot behind the host name first. -/
def changetoDnsNameFormat (host : List UInt8) : List UInt8 :=
  ((List.range (host ++ [46]).length).foldl (changeRound (host ++ [46])) (0, [])).2 ++ [0]

/-! ### Host names -/

def dotted (labels : List (List UInt8)) : List UInt8 := (terminated 46 labels).dropLast

structure HostName where
  labels : List (List UInt8)
  nonempty : labels ≠ []
  length_label : ∀ label ∈ labels, 1 ≤ label.length ∧ label.length ≤ 63
  ascii : ∀ label ∈ labels, ∀ c ∈ label, c ≠ 0 ∧ c ≠ 46 ∧ c < 128
  length_le : (dotted labels).length ≤ 253

def HostName.text (host : HostName) : List UInt8 := dotted host.labels

def encodeLabels (labels : List (List UInt8)) : List UInt8 :=
  labels.flatMap fun label ↦ UInt8.ofNat label.length :: label

variable {labels : List (List UInt8)} {mem : ℕ → UInt8} {heap : ℤ → UInt8} {name : NameBlock}
    {text : List UInt8}
  {place target size : ℕ}

theorem foldl_changeRound_label (before label behind : List UInt8) (hdots : (46 : UInt8) ∉ label)
    (out : List UInt8) :
    (List.range' before.length (label.length + 1)).foldl
      (changeRound (before ++ (label ++ 46 :: behind))) (before.length, out) =
      (before.length + (label.length + 1), out ++ UInt8.ofNat label.length :: label) := by
  have hsame : ∀ n ≤ label.length, (List.range' before.length n).foldl
      (changeRound (before ++ (label ++ 46 :: behind))) (before.length, out) =
        (before.length, out) := by
    intro n hn
    induction n with
    | zero => rfl
    | succ n ih =>
      have hbyte : (before ++ (label ++ 46 :: behind))[before.length + n]? = some label[n] := by
        rw [List.getElem?_append_right
          (by omega), Nat.add_sub_cancel_left, List.getElem?_append_left (by omega),
          List.getElem?_eq_getElem (by omega)]
      rw [List.range'_1_concat, List.foldl_append,
        ih (by omega), List.foldl_cons, List.foldl_nil, changeRound, hbyte, if_neg]
      intro hdot
      exact hdots (Option.some.inj hdot ▸ List.getElem_mem _)
  have hdot : (before ++ (label ++ 46 :: behind))[before.length + label.length]? = some 46 := by
    simp
  rw [List.range'_1_concat, List.foldl_append, hsame _ (Nat.le_refl _), List.foldl_cons,
    List.foldl_nil, changeRound,
    if_pos hdot, Nat.add_sub_cancel_left, List.drop_left, List.take_left, Nat.add_assoc]

theorem foldl_changeRound (before : List UInt8) (labels : List (List UInt8))
    (hdots : ∀ label ∈ labels, (46 : UInt8) ∉ label) (out : List UInt8) :
    ((List.range' before.length (terminated 46 labels).length).foldl
      (changeRound (before ++ terminated 46 labels))
      (before.length, out)).2 = out ++ encodeLabels labels := by
  induction labels generalizing before out with
  | nil => simp [encodeLabels]
  | cons label labels ih =>
    obtain ⟨hlabel, hlabels⟩ := List.forall_mem_cons.mp hdots
    have hlength : (terminated 46 (label :: labels)).length =
      label.length + 1 + (terminated 46 labels).length := by
      rw [terminated_cons, List.length_append, List.length_cons]
      omega
    have htext : before ++ (label ++ 46 :: terminated 46 labels) =
      before ++ (label ++ [46]) ++ terminated 46 labels := by
      simp
    have hstart : before.length + (label.length + 1) = (before ++ (label ++ [46])).length := by simp
    rw [hlength, ← List.range'_append_1, List.foldl_append, terminated_cons,
      foldl_changeRound_label _ _ _ hlabel, htext, hstart, ih _ hlabels, List.append_assoc]
    rfl

theorem changetoDnsNameFormat_dotted (hnonempty : labels ≠ [])
    (hdots : ∀ label ∈ labels, (46 : UInt8) ∉ label) :
    changetoDnsNameFormat (dotted labels) = encodeLabels labels ++ [0] := by
  unfold changetoDnsNameFormat dotted
  rw [dropLast_terminated_append hnonempty, List.range_eq_range']
  exact congrArg (· ++ [0]) (foldl_changeRound [] labels hdots [])

theorem HostName.changetoDnsNameFormat_text (host : HostName) :
    changetoDnsNameFormat host.text = encodeLabels host.labels ++ [0] :=
  changetoDnsNameFormat_dotted host.nonempty fun label hlabel h ↦
    (host.ascii label hlabel 46 h).2.1 rfl

/-! ### In the packet -/

def Stored (mem : ℕ → UInt8) (place : ℕ) (bytes : List UInt8) :
    Prop := ∀ k c, bytes[k]? = some c → mem (place + k) = c

theorem Stored.tail {c : UInt8} (hstored : Stored mem place (c :: text)) :
    Stored mem (place + 1) text := by
  intro k b hb
  rw [Nat.add_right_comm]
  exact hstored (k + 1) b hb

def pointerTo (target : ℕ) : List UInt8 :=
  [UInt8.ofNat (192 + target / 256), UInt8.ofNat (target % 256)]

theorem walk_pointer (htarget : target < 16384) (hstored : Stored mem place (pointerTo target))
    (hwalk : Walk mem target text size) : Walk mem place text 2 := by
  have hfirst : mem place = UInt8.ofNat (192 + target / 256) := hstored 0 _ rfl
  have hsecond : mem (place + 1) = UInt8.ofNat (target % 256) := hstored 1 _ rfl
  have hhigh : (mem place).toNat = 192 + target / 256 := by
    rw [hfirst, UInt8.toNat_ofNat']
    omega
  have hlow : (mem (place + 1)).toNat = target % 256 := by
    rw [hsecond, UInt8.toNat_ofNat']
    omega
  have hoffset : offsetAt mem place = target := by
    unfold offsetAt pointed
    omega
  refine .pointer (UInt8.le_iff_toNat_le.mpr ?_) (hoffset ▸ hwalk)
  rw [hhigh]
  exact Nat.le_add_right 192 _

variable {before after : List UInt8}

theorem walk_append (hplain : ∀ c ∈ before, c ≠ 0 ∧ ¬ 192 ≤ c)
    (hstored : Stored mem place before) (hwalk : Walk mem (place + before.length) after size) :
    Walk mem place (before ++ after) (before.length + size) := by
  induction before generalizing place with
  | nil =>
    rw [List.length_nil, Nat.zero_add]
    exact hwalk
  | cons c before ih =>
    obtain ⟨hc, hbefore⟩ := List.forall_mem_cons.mp hplain
    have hbyte : mem place = c := hstored 0 c rfl
    have hrest := ih hbefore hstored.tail (by
      rwa [List.length_cons, Nat.add_comm before.length, ← Nat.add_assoc] at hwalk)
    rw [List.length_cons, Nat.add_right_comm, List.cons_append, ← hbyte]
    exact .literal (hbyte ▸ hc.1) (hbyte ▸ hc.2) hrest

theorem Stored.left (hstored : Stored mem place (before ++ after)) :
    Stored mem place before := by
  intro k c hc
  have hk : k < before.length := (List.getElem?_eq_some_iff.mp hc).1
  exact hstored k c ((List.getElem?_append_left hk).trans hc)

theorem Stored.right (hstored : Stored mem place (before ++ after)) :
    Stored mem (place + before.length) after := by
  intro k c hc
  rw [Nat.add_assoc]
  refine hstored _ c ?_
  rwa [List.getElem?_append_right (Nat.le_add_right ..), Nat.add_sub_cancel_left]

theorem walk_stored (hplain : ∀ c ∈ text, c ≠ 0 ∧ ¬ 192 ≤ c)
    (hstored : Stored mem place (text ++ [0])) : Walk mem place text (text.length + 1) := by
  have hzero : mem (place + text.length) = 0 := hstored.right 0 0 rfl
  have hwalk := walk_append hplain hstored.left (.root hzero)
  rwa [List.append_nil] at hwalk

/-! ### The second loop on labels -/

theorem spanned_encodeLabels (hlabels : ∀ label ∈ labels, label.length < 256) :
    spanned (encodeLabels labels) = (encodeLabels labels).length := by
  induction labels with
  | nil => exact spanned_nil
  | cons label labels ih =>
    obtain ⟨hlabel, hrest⟩ := List.forall_mem_cons.mp hlabels
    have hlength : (UInt8.ofNat label.length).toNat = label.length := by
      rw [UInt8.toNat_ofNat']
      exact Nat.mod_eq_of_lt hlabel
    change spanned (UInt8.ofNat label.length :: (label ++ encodeLabels labels)) = _
    rw [spanned_cons, hlength, List.drop_left, ih hrest]
    change _ = (UInt8.ofNat label.length :: (label ++ encodeLabels labels)).length
    rw [List.length_cons, List.length_append]
    omega

variable {i : ℕ}

theorem holdsAt_append {first second : List UInt8} (hfirst : name.HoldsAt i first)
    (hsecond : name.HoldsAt (i + first.length) second) : name.HoldsAt i (first ++ second) := by
  intro k c hc
  rcases Nat.lt_or_ge k first.length with hk | hk
  · rw [List.getElem?_append_left hk] at hc
    exact hfirst k c hc
  · rw [List.getElem?_append_right hk] at hc
    have hbyte := hsecond (k - first.length) c hc
    rwa [Nat.add_assoc, Nat.add_sub_cancel' hk] at hbyte

theorem holdsAt_left {first second : List UInt8} (hholds : name.HoldsAt i (first ++ second)) :
    name.HoldsAt i first := by
  intro k c hc
  have hk : k < first.length := (List.getElem?_eq_some_iff.mp hc).1
  exact hholds k c ((List.getElem?_append_left hk).trans hc)

theorem holdsAt_of_agree {other : NameBlock} {bytes : List UInt8} (hholds : name.HoldsAt i bytes)
    (hagree : ∀ k : ℤ, k < (i + bytes.length : ℕ) → other.cell k = name.cell k) :
    other.HoldsAt i bytes := by
  intro k c hc
  have hk : k < bytes.length := (List.getElem?_eq_some_iff.mp hc).1
  rw [hagree _ (by omega)]
  exact hholds k c hc

theorem holdsAt_moved_label {c : UInt8} {label behind : List UInt8} (hc : c.toNat = label.length)
    (hholds : name.HoldsAt i (c :: (label ++ behind))) :
    (moved name i c).HoldsAt i (label ++ [46]) := by
  refine holdsAt_append (fun k b hb ↦ ?_) fun k b hb ↦ ?_
  · have hk : k < label.length := (List.getElem?_eq_some_iff.mp hb).1
    rw [cell_moved, if_neg (by omega), if_pos (by omega)]
    have hbyte := hholds (k + 1) b ((List.getElem?_append_left hk).trans hb)
    rwa [← Nat.add_assoc, Int.natCast_succ] at hbyte
  · obtain ⟨rfl, rfl⟩ := eq_of_getElem?_singleton hb
    rw [cell_moved, if_pos (by omega)]

theorem cell_moved_before {c : UInt8} {k : ℤ} (hk : k < i) :
    (moved name i c).cell k = name.cell k := by
  rw [cell_moved, if_neg (by omega), if_neg (by omega)]

theorem ne_zero_encodeLabels (hlabels : ∀ label ∈ labels, (1 ≤ label.length ∧ label.length < 256) ∧
    ∀ c ∈ label, c ≠ 0) : ∀ c ∈ encodeLabels labels, c ≠ 0 := by
  intro c hc
  obtain ⟨label, hlabel, hc⟩ := List.mem_flatMap.mp hc
  obtain ⟨hlength, hne⟩ := hlabels label hlabel
  rcases List.mem_cons.mp hc with rfl | hc
  · intro hzero
    have hvalue := congrArg UInt8.toNat hzero
    rw [UInt8.toNat_ofNat'] at hvalue
    change label.length % 256 = 0 at hvalue
    omega
  · exact hne c hc

theorem exists_returns_convert_labels (hnonempty : labels ≠ [])
    (hlabels : ∀ label ∈ labels, (1 ≤ label.length ∧ label.length < 256) ∧ ∀ c ∈ label, c ≠ 0)
    (hfilled : Filled name i) (hholds : name.HoldsAt i (encodeLabels labels ++ [0])) :
    ∃ result, Returns convertRound ⟨i, name⟩ result ∧ result.HoldsAt i (dotted labels ++ [0]) ∧
      ∀ k : ℤ, k < i → result.cell k = name.cell k := by
  induction labels generalizing i name with
  | nil => exact absurd rfl hnonempty
  | cons label labels ih =>
    obtain ⟨⟨hlength, hne⟩, hrest⟩ := List.forall_mem_cons.mp hlabels
    obtain ⟨c, hc, hlabel⟩ : ∃ c, UInt8.ofNat label.length = c ∧ c.toNat = label.length :=
      ⟨_, rfl, UInt8.toNat_ofNat'.trans (Nat.mod_eq_of_lt hlength.2)⟩
    have hholds : name.HoldsAt i (c :: (label ++ encodeLabels labels) ++ [0]) := hc ▸ hholds
    have hnonzero : ∀ b ∈ c :: (label ++ encodeLabels labels), b ≠ 0 :=
      hc ▸ ne_zero_encodeLabels hlabels
    obtain ⟨hpos, hnonzero⟩ := List.forall_mem_cons.mp hnonzero
    have hround := convertRound_of_cons hfilled hpos (hholds 0 c rfl)
    have hend : c.toNat ≤ (label ++ encodeLabels labels).length := by
      rw [hlabel, List.length_append]
      omega
    have hmoved := holdsAt_moved hholds hend
    rw [hlabel, List.drop_left] at hmoved
    have hdot : (moved name i c).HoldsAt i (label ++ [46]) := by
      refine holdsAt_moved_label hlabel (?_ :
        name.HoldsAt i (c :: (label ++ (encodeLabels labels ++ [0]))))
      simpa using hholds
    have hfilled' := filled_moved hholds hfilled hnonzero hend
    rw [hlabel] at hround hfilled'
    cases labels with
    | nil =>
      have hlast : (moved name i c).cell (i + label.length + 1 : ℕ) = 0 := hmoved 0 0 rfl
      refine ⟨_, .again hround (.ret (convertRound_of_zero (Nat.le_refl _) hlast)), ?_,
        fun k hk ↦ ?_⟩
      · rw [show dotted [label] = label by simp [dotted]]
        refine holdsAt_append (holdsAt_of_agree (holdsAt_left hdot) fun k hk ↦ ?_) fun k b hb ↦ ?_
        · rw [NameBlock.cell_set, if_neg (by omega)]
        · obtain ⟨rfl, rfl⟩ := eq_of_getElem?_singleton hb
          rw [NameBlock.cell_set, if_pos (by omega)]
      · rw [NameBlock.cell_set, if_neg (by omega), cell_moved_before hk]
    | cons next labels =>
      obtain ⟨result, hreturns, hstring, hbefore⟩ := ih (List.cons_ne_nil _ _) hrest hfilled' hmoved
      refine ⟨result, .again hround hreturns, ?_, fun k hk ↦ ?_⟩
      · have hfirst : result.HoldsAt i (label ++ [46]) :=
          holdsAt_of_agree hdot fun k hk ↦ hbefore k (by simpa [Nat.add_assoc] using hk)
        have hsecond :
          result.HoldsAt (i + (label ++ [46]).length) (dotted (next :: labels) ++ [0]) := by
          simpa [Nat.add_assoc] using hstring
        have hall := holdsAt_append hfirst hsecond
        rw [dotted, dropLast_terminated_cons label (List.cons_ne_nil _ _)]
        simpa [dotted] using hall
      · rw [hbefore k (by push_cast; omega), cell_moved_before hk]

/-! ### There and back -/

/-- `ReadName` returns a text and a count, and writes in its block only. -/
def Decodes (mem : ℕ → UInt8) (heap : ℤ → UInt8) (place : ℕ) (text : List UInt8) (count : ℕ) :
    Prop :=
  ∃ rounds r, readName mem heap place rounds = some r ∧ r.name.HoldsAt 0 (text ++ [0]) ∧
    r.count = count ∧ ∀ i ∈ r.name.written, 0 ≤ i ∧ i ≤ 255

theorem length_encodeLabels (hnonempty : labels ≠ []) :
    (encodeLabels labels).length = (dotted labels).length + 1 := by
  have hdotted : (terminated 46 labels).dropLast ++ [46] = _ := dropLast_terminated_append hnonempty
  have hlength := congrArg List.length hdotted
  rw [List.length_append] at hlength
  change (dotted labels).length + 1 = _ at hlength
  rw [hlength]
  unfold encodeLabels terminated
  rw [List.length_flatMap, List.length_flatMap]
  exact congrArg List.sum (List.map_congr_left fun label _ ↦ by simp)

theorem HostName.label_bytes (host : HostName) :
    ∀ label ∈ host.labels, (1 ≤ label.length ∧ label.length < 256) ∧ ∀ c ∈ label, c ≠ 0 := by
  intro label hlabel
  have hlength := host.length_label label hlabel
  exact ⟨⟨hlength.1, by omega⟩, fun c hc ↦ (host.ascii label hlabel c hc).1⟩

theorem HostName.plain_bytes (host : HostName) :
    ∀ c ∈ encodeLabels host.labels, c ≠ 0 ∧ ¬ 192 ≤ c := by
  intro c hc
  refine ⟨ne_zero_encodeLabels host.label_bytes c hc, fun hpointer ↦ ?_⟩
  have hle : 192 ≤ c.toNat := UInt8.le_iff_toNat_le.mp hpointer
  obtain ⟨label, hlabel, hc⟩ := List.mem_flatMap.mp hc
  rcases List.mem_cons.mp hc with rfl | hc
  · have hlength := host.length_label label hlabel
    rw [UInt8.toNat_ofNat'] at hle
    omega
  · have hlow : c.toNat < 128 := UInt8.lt_iff_toNat_lt.mp (host.ascii label hlabel c hc).2.2
    omega

theorem decodes_of_walk (host : HostName) (heap : ℤ → UInt8)
    (hwalk : Walk mem place (encodeLabels host.labels) size) :
    Decodes mem heap place host.text size := by
  obtain ⟨rounds, r, hread⟩ := exists_readName_of_walk heap hwalk
  obtain ⟨text, block, s, hwalk', hholds, -, hconvert, -⟩ := exists_walk_of_readName hread
  obtain ⟨rfl, hsize⟩ := hwalk.unique hwalk'
  obtain ⟨result, hconvert', hstring, -⟩ :=
    exists_returns_convert_labels host.nonempty host.label_bytes
    (fun k hk ↦ absurd hk (Nat.not_lt_zero k)) hholds
  obtain rfl := hconvert.unique hconvert'
  have hlength := length_encodeLabels host.nonempty
  have hshort := host.length_le
  have hspan := spanned_encodeLabels fun label hlabel ↦ (host.label_bytes label hlabel).1.2
  refine ⟨rounds, r, hread, hstring, hsize.symm, fun w hw ↦ ?_⟩
  rw [mem_written_of_readName hwalk hread, if_neg (List.length_pos_iff.mp (by omega)), hspan] at hw
  omega

/-- `ReadName` undoes `ChangetoDnsNameFormat`, and counts all bytes. Where some bytes stand before a
pointer to the others it gives the same host name and counts those bytes and the pointer. -/
theorem readName_changetoDnsNameFormat (host : HostName) (mem : ℕ → UInt8) (heap : ℤ → UInt8) :
    (∀ place, Stored mem place (changetoDnsNameFormat host.text) →
      Decodes mem heap place host.text (changetoDnsNameFormat host.text).length) ∧
    ∀ place target before after, changetoDnsNameFormat host.text = before ++ after → after ≠ [] →
      target < 16384 → Stored mem place (before ++ pointerTo target) → Stored mem target after →
        Decodes mem heap place host.text (before.length + 2) := by
  rw [host.changetoDnsNameFormat_text]
  constructor
  · intro place hstored
    rw [List.length_append]
    exact decodes_of_walk host heap (walk_stored host.plain_bytes hstored)
  · intro place target before after hsplit hafter htarget hstored hstored'
    rw [← List.dropLast_concat_getLast hafter, ← List.append_assoc] at hsplit
    obtain ⟨hlabels, hlast⟩ := List.append_inj' hsplit rfl
    rw [← List.dropLast_concat_getLast hafter, ← hlast] at hstored'
    have hplain := host.plain_bytes
    rw [hlabels] at hplain
    have hrest := walk_stored (fun c hc ↦ hplain c (List.mem_append_right _ hc)) hstored'
    have hwalk := walk_append (fun c hc ↦ hplain c (List.mem_append_left _ hc)) hstored.left
      (walk_pointer htarget hstored.right hrest)
    exact decodes_of_walk host heap (hlabels ▸ hwalk)

/-- `a.b`. -/
def twoLabels : HostName where
  labels := [[97], [98]]
  nonempty := by decide
  length_label := by decide
  ascii := by simp
  length_le := by decide

/-- `a.b` whole, and behind it its first label with a pointer to the second. -/
def twoNames (i : ℕ) : UInt8 := [1, 97, 1, 98, 0, 1, 97, 192, 2].getD i 0

theorem stored_of_isPrefix {bytes memory : List UInt8} (hbegin : bytes <+: memory.drop place) :
    Stored (fun i ↦ memory.getD i 0) place bytes := by
  intro k c hc
  obtain ⟨behind, hbehind⟩ := hbegin
  have hk : k < bytes.length := (List.getElem?_eq_some_iff.mp hc).1
  have hbyte : memory[place + k]? = some c := by
    rw [← List.getElem?_drop, ← hbehind, List.getElem?_append_left hk, hc]
  change memory.getD (place + k) 0 = c
  rw [List.getD_eq_getElem?_getD, hbyte]
  rfl

theorem readName_twoLabels :
    Decodes twoNames (fun _ ↦ 255) 0 [97, 46, 98] 5 ∧ Decodes twoNames (fun _ ↦ 255) 5
      [97, 46, 98] 4 :=
  ⟨(readName_changetoDnsNameFormat twoLabels twoNames _).1 0 (stored_of_isPrefix (by decide)),
    (readName_changetoDnsNameFormat twoLabels twoNames _).2 5 2 [1, 97] [1, 98, 0]
      (by decide) (by decide) (by decide)
      (stored_of_isPrefix (by decide)) (stored_of_isPrefix (by decide))⟩

end CrossBreeder.Dnsc
