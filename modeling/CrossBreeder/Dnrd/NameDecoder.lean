import CrossBreeder.Dnrd.Wire
import Mathlib.Data.List.GetD

/-!
# The accesses of the name decoder

`get_objname` with its variables, the memory around the buffer `dest`, and a record of the bytes it
reads and writes. `decodeLoop_spec` shows that the loop ends whatever the packet is, since a label
moves the write position and a pointer is counted, and that it returns what `getObjname` returns.

The root name has no dot, so that the zero goes to the byte before the buffer and the buffer keeps
what it held. `decodeName_sound_iff` says that this is the only case in which the function does more
or less than it should; `PointsToRoot` is what the packet holds then.
-/

namespace CrossBreeder.Dnrd

open Foundation

/-! ### The function -/

/-- A value converted to `unsigned int`. -/
def toUnsigned (x : ℤ) : ℕ := (x % 4294967296).toNat

/-- The variables of `get_objname`, the memory around `dest`, and the positions read and written. -/
structure Decoding where
  i : ℕ
  j : ℤ
  depth : ℕ
  compressed : ℕ
  dest : ℤ → UInt8
  reads : List ℕ
  writes : List ℤ

namespace Decoding

/-- `msg[i++]`. -/
def fetch (s : Decoding) : Decoding := { s with i := toUnsigned (s.i + 1), reads := s.i :: s.reads }

/-- `dest[j++] = byte`. -/
def put (byte : UInt8) (s : Decoding) : Decoding :=
  { s with j := s.j + 1, dest := Function.update s.dest s.j byte, writes := s.j :: s.writes }

/-- `depth++`. -/
def descend (s : Decoding) : Decoding := { s with depth := s.depth + 1 }

/-- The jump to where a pointer with the first byte `c` leads. The position behind the first pointer
is stored. -/
def follow (msg : Packet) (c : ℕ) (s : Decoding) : Decoding :=
  { s with
    compressed := if s.compressed = 0 then s.i + 1 else s.compressed
    i := (c &&& 0x3f) <<< 8 + byteAt msg s.i
    reads := s.i :: s.reads }

/-- The end of `get_objname`, with its return value. -/
def finish (destsize : ℕ) (s : Decoding) : ℤ × Decoding :=
  if (destsize : ℤ) ≤ s.j - 1 then (-1, { s with j := s.j - 1 })
  else
    (if s.compressed ≠ 0 then s.compressed else s.i,
      { s with
        j := s.j - 1
        dest := Function.update s.dest (s.j - 1) 0
        writes := (s.j - 1) :: s.writes })

def text (s : Decoding) : List UInt8 := (List.range s.j.toNat).map fun k : ℕ ↦ s.dest k

/-- The bytes in front of the zero, with the dot that it replaced. -/
def written (s : Decoding) : List UInt8 := if s.j < 0 then [] else s.text ++ [46]

end Decoding

def copyLabel (msg : Packet) : ℕ → Decoding → Except Decoding Decoding
  | 0, s => .ok s
  | c + 1, s =>
    if validChar (msg.getD s.i 0) then copyLabel msg c (s.put (msg.getD s.i 0)).fetch
    else .error { s with reads := s.i :: s.reads }

/-- The loop of `get_objname` and what follows it. -/
def decodeLoop (msg : Packet) (destsize : ℕ) : ℕ → Decoding → Option (ℤ × Decoding)
  | 0, _ => none
  | fuel + 1, s =>
    let c := byteAt msg s.i
    let s := s.fetch
    if c = 0 then some (s.finish destsize)
    else if msg.length ≤ s.i then some (-1, s)
    else if c &&& 0xc0 = 0xc0 then
      let s := s.descend
      if msg.length ≤ s.depth ∨ udpMaxsize < s.depth then some (-1, s)
      else
        let s := s.follow msg c
        if msg.length ≤ s.i then some (-1, s) else decodeLoop msg destsize fuel s
    else if c < 64 then
      if destsize ≤ toUnsigned (s.j + c + 1) ∨ msg.length ≤ toUnsigned (s.i + c) then some (-1, s)
      else match copyLabel msg c s with
        | .error s => some (-1, s)
        | .ok s => decodeLoop msg destsize fuel (s.put 46)
    else some (-1, s)

/-- `get_objname` with the memory at and around `dest`: its value and what it leaves, if it returns
within the given number of iterations. -/
def decodeName (msg : Packet) (index : ℤ) (destsize : ℕ) (dest : ℤ → UInt8) (fuel : ℕ) :
    Option (ℤ × Decoding) :=
  let s : Decoding := ⟨toUnsigned index, 0, 0, 0, dest, [], []⟩
  if index < packetDatabegin ∨ msg.length ≤ s.i then
    some (-1, s) else decodeLoop msg destsize fuel s

inductive PointsToRoot (msg : Packet) : ℕ → ℕ → Prop
  | root {offset : ℕ} (hbound : offset < msg.length) (hzero : byteAt msg offset = 0) :
    PointsToRoot msg 0 offset
  | pointer {n offset : ℕ} (hptr : 192 ≤ byteAt msg offset) (hbound : offset + 1 < msg.length)
      (hrest : PointsToRoot msg n (pointerTarget msg offset)) : PointsToRoot msg (n + 1) offset

/-- What the decoder should do: it reads inside the packet and writes inside the buffer, and when it
succeeds it returns a position behind the start, inside or at the end of the packet, and leaves a
terminated string. -/
structure Sound (msg : Packet) (index : ℤ) (destsize : ℕ) (value : ℤ) (s : Decoding) : Prop where
  reads : ∀ k ∈ s.reads, k < msg.length
  writes : ∀ k ∈ s.writes, 0 ≤ k ∧ k < destsize
  behind : value ≠ -1 → index < value ∧ value ≤ msg.length
  terminated : value ≠ -1 → ∃ k : ℤ, 0 ≤ k ∧ k < destsize ∧ s.dest k = 0

/-! ### Single accesses -/

theorem toUnsigned_natCast {n : ℕ} (hn : n < 4294967296) : toUnsigned n = n := by
  unfold toUnsigned
  omega

theorem byteAt_lt (msg : Packet) (offset : ℕ) : byteAt msg offset < 256 :=
  (msg.getD offset 0).toNat_lt

theorem pointerBits_iff (msg : Packet) (offset : ℕ) : byteAt msg offset &&& 0xc0 = 0xc0 ↔
    192 ≤ byteAt msg offset := by
  have hall : ∀ c : Fin 256, c.val &&& 0xc0 = 0xc0 ↔ 192 ≤ c.val := by decide +kernel
  exact hall ⟨_, byteAt_lt msg offset⟩

variable {msg : Packet}

theorem pointerBits_eq {offset : ℕ} (h : 192 ≤ byteAt msg offset) :
    (byteAt msg offset &&& 0x3f) <<< 8 + byteAt msg (offset + 1) = pointerTarget msg offset := by
  have hall : ∀ c : Fin 256, 192 ≤ c.val → (c.val &&& 0x3f) <<< 8 = (c.val - 192) * 256 := by
    decide +kernel
  rw [hall ⟨_, byteAt_lt msg offset⟩ h, pointerTarget]

namespace Decoding

variable {s : Decoding}

@[simp] theorem fetch_text (s : Decoding) : s.fetch.text = s.text := rfl

@[simp] theorem fetch_j (s : Decoding) : s.fetch.j = s.j := rfl

theorem text_put (hj : 0 ≤ s.j) (byte : UInt8) : (s.put byte).text = s.text ++ [byte] := by
  have hnat : (s.j + 1).toNat = s.j.toNat + 1 := by omega
  simp only [text, put, hnat, List.range_succ, List.map_append, List.map_singleton]
  congr 1
  · refine List.map_congr_left fun k hk ↦ Function.update_of_ne ?_ _ _
    rw [List.mem_range] at hk
    omega
  · rw [Int.toNat_of_nonneg hj, Function.update_self]

theorem length_text (s : Decoding) : s.text.length = s.j.toNat := by simp [text]

end Decoding

/-- A label that ends inside the packet is copied. -/
theorem copyLabel_spec (hsize : msg.length < 2147483648) (c : ℕ) :
    ∀ s : Decoding, s.i + c < msg.length → 0 ≤ s.j →
      ∃ s', copyLabel msg c s = .ok s' ∧ s'.i = s.i + c ∧ s'.j = s.j + c ∧ s'.depth = s.depth ∧
        s'.compressed = s.compressed ∧ s'.text = s.text ++ (msg.drop s.i).take c ∧
        (∀ k ∈ s'.reads, k ∈ s.reads ∨ k < msg.length) ∧
        ∀ k ∈ s'.writes, k ∈ s.writes ∨ (0 ≤ k ∧ k < s.j + c) := by
  induction c with
  | zero =>
    intro s _ _
    exact ⟨s, rfl, rfl, by simp, rfl, rfl, by simp, fun k hk ↦ Or.inl hk, fun k hk ↦ Or.inl hk⟩
  | succ c ih =>
    intro s hi hj
    have hnext : (s.put (msg.getD s.i 0)).fetch.i = s.i + 1 :=
      toUnsigned_natCast (n := s.i + 1) (by omega)
    have hj' : (s.put (msg.getD s.i 0)).fetch.j = s.j + 1 := rfl
    obtain ⟨s', hcopy, hi', hjc, hdepth, hcompressed, htext, hreads, hwrites⟩ :=
      ih (s.put (msg.getD s.i 0)).fetch (by rw [hnext]; omega) (by rw [hj']; omega)
    refine ⟨s', ?_, by omega, by rw [hjc, hj']; push_cast; omega, hdepth, hcompressed, ?_, ?_, ?_⟩
    · rw [copyLabel, if_pos (validChar_eq_true _), hcopy]
    · have hlt : s.i < msg.length := by omega
      rw [htext, Decoding.fetch_text, Decoding.text_put hj, hnext, List.drop_eq_getElem_cons hlt,
        List.take_succ_cons, List.append_assoc, List.singleton_append, List.getD_eq_getElem _ _ hlt]
    · intro k hk
      rcases hreads k hk with hmem | hlt
      · rcases List.mem_cons.mp hmem with rfl | hmem
        · exact Or.inr (by show s.i < _; omega)
        · exact Or.inl hmem
      · exact Or.inr hlt
    · intro k hk
      rcases hwrites k hk with hmem | hlt
      · rcases List.mem_cons.mp hmem with rfl | hmem
        · exact Or.inr ⟨hj, by push_cast; omega⟩
        · exact Or.inl hmem
      · rw [hj'] at hlt
        exact Or.inr ⟨hlt.1, by push_cast; omega⟩

/-! ### The loop -/

structure InLoop (msg : Packet) (index : ℤ) (destsize : ℕ) (s : Decoding) : Prop where
  i_lt : s.i < msg.length
  j_nonneg : 0 ≤ s.j
  j_lt : s.j < destsize
  depth_le : s.depth ≤ udpMaxsize
  reads : ∀ k ∈ s.reads, k < msg.length
  writes : ∀ k ∈ s.writes, 0 ≤ k ∧ k < destsize
  behind : s.compressed = 0 ∧ index ≤ s.i ∨ s.compressed ≠ 0 ∧ index < s.compressed ∧
    s.compressed ≤ msg.length
  dot : 0 < s.j → s.dest (s.j - 1) = 46

structure Decoded (msg : Packet) (index : ℤ) (destsize : ℕ) (value : ℤ) (s : Decoding) : Prop where
  reads : ∀ k ∈ s.reads, k < msg.length
  writes : value = -1 ∨ 0 ≤ s.j → ∀ k ∈ s.writes, 0 ≤ k ∧ k < destsize
  before : value ≠ -1 → s.j < 0 → -1 ∈ s.writes
  behind : value ≠ -1 → index < value ∧ value ≤ msg.length
  zero : value ≠ -1 → s.j < destsize ∧ s.dest s.j = 0

namespace InLoop

variable {msg : Packet} {index : ℤ} {destsize : ℕ} {s : Decoding}

theorem fetch_i (h : InLoop msg index destsize s) (hsize : msg.length < 2147483648) :
    s.fetch.i = s.i + 1 := by
  have hlt := h.i_lt
  exact toUnsigned_natCast (n := s.i + 1) (by omega)

theorem fetch_reads (h : InLoop msg index destsize s) : ∀ k ∈ s.fetch.reads, k < msg.length := by
  intro k hk
  rcases List.mem_cons.mp hk with rfl | hk
  · exact h.i_lt
  · exact h.reads k hk

theorem refused (h : InLoop msg index destsize s) {last : Decoding}
    (hreads : ∀ k ∈ last.reads, k < msg.length) (hwrites : last.writes = s.writes) :
    Decoded msg index destsize (-1) last where
  reads := hreads
  writes _ := hwrites ▸ h.writes
  before hne := absurd rfl hne
  behind hne := absurd rfl hne
  zero hne := absurd rfl hne

theorem followed (h : InLoop msg index destsize s) (hsize : msg.length < 2147483648)
    (hptr : 192 ≤ byteAt msg s.i) (hnext : s.i + 1 < msg.length) (hdepth : s.depth + 1 ≤ udpMaxsize)
    (htarget : pointerTarget msg s.i < msg.length) :
    InLoop msg index destsize (s.fetch.descend.follow msg (byteAt msg s.i)) where
  i_lt := by
    show (byteAt msg s.i &&& 0x3f) <<< 8 + byteAt msg s.fetch.i < _
    rw [h.fetch_i hsize, pointerBits_eq hptr]
    exact htarget
  j_nonneg := h.j_nonneg
  j_lt := h.j_lt
  depth_le := hdepth
  reads := by
    intro k hk
    rcases List.mem_cons.mp hk with rfl | hk
    · show s.fetch.i < _
      rw [h.fetch_i hsize]
      exact hnext
    · exact h.fetch_reads k hk
  writes := h.writes
  behind := by
    right
    show (if s.compressed = 0 then s.fetch.i + 1 else s.compressed) ≠ 0 ∧
      index < ((if s.compressed = 0 then s.fetch.i + 1 else s.compressed : ℕ) : ℤ) ∧
      (if s.compressed = 0 then s.fetch.i + 1 else s.compressed) ≤ msg.length
    rw [h.fetch_i hsize]
    rcases h.behind with ⟨hzero, hindex⟩ | hbehind
    · rw [if_pos hzero]
      omega
    · rw [if_neg hbehind.1]
      exact hbehind
  dot := h.dot

theorem labelled (h : InLoop msg index destsize s) {c : ℕ} {s' : Decoding}
    (hnext : s.i + 1 + c < msg.length) (hfits : s.j + c + 1 < destsize)
    (hi : s'.i = s.i + 1 + c) (hj : s'.j = s.j + c) (hdepth : s'.depth = s.depth)
    (hcompressed : s'.compressed = s.compressed)
    (hreads : ∀ k ∈ s'.reads, k ∈ s.fetch.reads ∨ k < msg.length)
    (hwrites : ∀ k ∈ s'.writes, k ∈ s.writes ∨ (0 ≤ k ∧ k < s.j + c)) :
    InLoop msg index destsize (s'.put 46) where
  i_lt := by
    show s'.i < _
    omega
  j_nonneg := by
    have hpos := h.j_nonneg
    show 0 ≤ s'.j + 1
    omega
  j_lt := by
    show s'.j + 1 < _
    omega
  depth_le := hdepth ▸ h.depth_le
  reads := fun k hk ↦ (hreads k hk).elim (h.fetch_reads k) id
  writes := by
    have hpos := h.j_nonneg
    intro k hk
    rcases List.mem_cons.mp hk with rfl | hk
    · exact ⟨by omega, by omega⟩
    · rcases hwrites k hk with hmem | hlt
      · exact h.writes k hmem
      · exact ⟨hlt.1, by omega⟩
  behind := by
    show s'.compressed = 0 ∧ index ≤ s'.i ∨ s'.compressed ≠ 0 ∧ index < s'.compressed ∧
      s'.compressed ≤ msg.length
    rw [hcompressed, hi]
    rcases h.behind with ⟨hzero, hindex⟩ | hbehind
    · exact Or.inl ⟨hzero, by push_cast; omega⟩
    · exact Or.inr hbehind
  dot _ := by
    show Function.update s'.dest s'.j 46 (s'.j + 1 - 1) = 46
    rw [Int.add_sub_cancel, Function.update_self]

theorem finished (h : InLoop msg index destsize s) (hsize : msg.length < 2147483648) :
    Decoded msg index destsize (s.fetch.finish destsize).1 (s.fetch.finish destsize).2 ∧
      (s.fetch.finish destsize).1 = behindName s.compressed (s.i + 1) ∧
      (s.fetch.finish destsize).2.written = s.text := by
  have hpos := h.j_nonneg
  have hlt := h.j_lt
  have hfits : ¬ (destsize : ℤ) ≤ s.fetch.j - 1 := by
    show ¬ (destsize : ℤ) ≤ s.j - 1
    omega
  have hvalue : (s.fetch.finish destsize).1 = behindName s.compressed (s.i + 1) := by
    rw [Decoding.finish, if_neg hfits, ← h.fetch_i hsize, behindName]
    show (if s.compressed ≠ 0 then (s.compressed : ℤ) else s.fetch.i) = _
    split_ifs <;> simp_all
  have hj : (s.fetch.finish destsize).2.j = s.j - 1 := by
    rw [Decoding.finish, if_neg hfits]
    rfl
  have hdest : (s.fetch.finish destsize).2.dest = Function.update s.dest (s.j - 1) 0 := by
    rw [Decoding.finish, if_neg hfits]
    rfl
  have hwrites : (s.fetch.finish destsize).2.writes = (s.j - 1) :: s.writes := by
    rw [Decoding.finish, if_neg hfits]
    rfl
  have hreads : (s.fetch.finish destsize).2.reads = s.fetch.reads := by
    rw [Decoding.finish, if_neg hfits]
  refine ⟨⟨hreads ▸ h.fetch_reads, ?_, ?_, fun _ ↦ ?_, fun _ ↦ ?_⟩, hvalue, ?_⟩
  · rw [hj, hwrites, hvalue]
    intro hinside k hk
    rcases List.mem_cons.mp hk with rfl | hk
    · omega
    · exact h.writes k hk
  · rw [hj, hwrites]
    intro _ hneg
    rw [show s.j - 1 = -1 by omega]
    exact List.mem_cons_self
  · rw [hvalue, behindName]
    have hi := h.i_lt
    rcases h.behind with ⟨hzero, hindex⟩ | hbehind
    · rw [if_pos hzero]
      omega
    · rw [if_neg hbehind.1]
      omega
  · rw [hj, hdest, Function.update_self]
    exact ⟨by omega, rfl⟩
  · rw [Decoding.written, hj]
    by_cases hzero : s.j = 0
    · rw [if_pos (by omega), Decoding.text, hzero]
      rfl
    · rw [if_neg (by omega), Decoding.text, Decoding.text, hj, hdest]
      have hnat : s.j.toNat = (s.j - 1).toNat + 1 := by omega
      rw [hnat, List.range_succ, List.map_append, List.map_singleton,
        Int.toNat_of_nonneg (by omega), h.dot (by omega)]
      congr 1
      refine List.map_congr_left fun k hk ↦ Function.update_of_ne ?_ _ _
      rw [List.mem_range] at hk
      omega

end InLoop

/-- The loop returns, and what it returns is what `getObjnameLoop` returns. A label moves the write
position and a pointer is counted, which bounds the iterations. -/
theorem decodeLoop_spec {index : ℤ} {destsize : ℕ} (hsize : msg.length < 2147483648)
    (hdestsize : destsize < 2147483648) (fuel : ℕ) :
    ∀ {s : Decoding}, InLoop msg index destsize s →
      destsize + udpMaxsize + 1 ≤ fuel + s.j.toNat + s.depth →
      ∃ value last, decodeLoop msg destsize fuel s = some (value, last) ∧
      Decoded msg index destsize value last ∧
        getObjnameLoop msg destsize fuel s.i s.text s.depth s.compressed =
          if value = -1 then none else some (last.written, value.toNat) := by
  induction fuel with
  | zero =>
    intro s h hfuel
    have hdepth := h.depth_le
    have hpos := h.j_nonneg
    have hlt := h.j_lt
    omega
  | succ fuel ih =>
    intro s h hfuel
    have hpos := h.j_nonneg
    have hlt := h.j_lt
    have hi := h.i_lt
    have hbyte := byteAt_lt msg s.i
    have hlength := Decoding.length_text s
    simp only [decodeLoop, getObjnameLoop, pointerBits_iff, h.fetch_i hsize]
    by_cases hzero : byteAt msg s.i = 0
    · rw [if_pos hzero, if_pos hzero]
      obtain ⟨houtcome, hvalue, hwritten⟩ := h.finished hsize
      refine ⟨(s.fetch.finish destsize).1, (s.fetch.finish destsize).2, rfl, houtcome, ?_⟩
      rw [hvalue, hwritten, if_neg (by omega), Int.toNat_natCast]
    · rw [if_neg hzero, if_neg hzero]
      by_cases hnext : msg.length ≤ s.i + 1
      · rw [if_pos hnext, if_pos hnext]
        exact ⟨_, _, rfl, h.refused h.fetch_reads rfl, rfl⟩
      · rw [if_neg hnext, if_neg hnext]
        by_cases hptr : 192 ≤ byteAt msg s.i
        · rw [if_pos hptr, if_pos hptr]
          have hdescend : s.fetch.descend.depth = s.depth + 1 := rfl
          by_cases hdepth : msg.length ≤ s.depth + 1 ∨ udpMaxsize < s.depth + 1
          · rw [hdescend, if_pos hdepth, if_pos hdepth]
            exact ⟨_, _, rfl, h.refused h.fetch_reads rfl, rfl⟩
          · have htarget : (s.fetch.descend.follow msg (byteAt msg s.i)).i =
                pointerTarget msg s.i := by
              show (byteAt msg s.i &&& 0x3f) <<< 8 + byteAt msg s.fetch.i = _
              rw [h.fetch_i hsize, pointerBits_eq hptr]
            have hcompressed : (s.fetch.descend.follow msg (byteAt msg s.i)).compressed =
                behindName s.compressed (s.i + 2) := by
              show (if s.compressed = 0 then s.fetch.i + 1 else s.compressed) = _
              rw [h.fetch_i hsize, behindName]
            rw [hdescend, if_neg hdepth, if_neg hdepth, htarget]
            by_cases hlimit : msg.length ≤ pointerTarget msg s.i
            · rw [if_pos hlimit, if_pos hlimit]
              refine ⟨_, _, rfl, h.refused ?_ rfl, rfl⟩
              intro k hk
              rcases List.mem_cons.mp hk with rfl | hk
              · show s.fetch.i < _
                rw [h.fetch_i hsize]
                omega
              · exact h.fetch_reads k hk
            · rw [if_neg hlimit, if_neg hlimit]
              have hfollowed := h.followed hsize hptr (by omega) (by omega) (by omega)
              obtain ⟨value, last, hloop, houtcome, hspec⟩ := ih hfollowed (by
                show _ ≤ fuel + s.j.toNat + (s.depth + 1)
                omega)
              refine ⟨value, last, hloop, houtcome, ?_⟩
              rw [← hspec, ← hcompressed, ← htarget]
              rfl
        · rw [if_neg hptr, if_neg hptr]
          by_cases hlabel : byteAt msg s.i < 64
          · have hroom : toUnsigned (s.fetch.j + byteAt msg s.i + 1) =
              s.j.toNat + byteAt msg s.i + 1 := by
              rw [Decoding.fetch_j]
              unfold toUnsigned
              omega
            have hend : toUnsigned ((s.i + 1 : ℕ) + byteAt msg s.i) = s.i + 1 + byteAt msg s.i := by
              unfold toUnsigned
              omega
            rw [if_pos hlabel, if_pos hlabel, hlength, hroom, hend]
            by_cases hborder : destsize ≤ s.j.toNat + byteAt msg s.i + 1 ∨
              msg.length ≤ s.i + 1 + byteAt msg s.i
            · rw [if_pos hborder, if_pos hborder]
              exact ⟨_, _, rfl, h.refused h.fetch_reads rfl, rfl⟩
            · have hvalid : (labelAt msg s.i).all validChar = true := List.all_eq_true.mpr fun _ _ ↦
                validChar_eq_true _
              obtain ⟨s', hcopy, hi', hj', hdepth, hcompressed, htext, hreads, hwrites⟩ :=
                copyLabel_spec hsize (byteAt msg s.i) s.fetch (by rw [h.fetch_i hsize]; omega) hpos
              rw [h.fetch_i hsize] at hi' htext
              rw [if_neg hborder, if_neg hborder, if_pos hvalid, hcopy]
              have hlabelled : InLoop msg index destsize (s'.put 46) :=
                h.labelled (by omega) (by omega) hi' hj' hdepth hcompressed hreads hwrites
              obtain ⟨value, last, hloop, houtcome, hspec⟩ := ih hlabelled (by
                show _ ≤ fuel + (s'.j + 1).toNat + s'.depth
                rw [hj', hdepth, Decoding.fetch_j]
                show _ ≤ fuel + (s.j + byteAt msg s.i + 1).toNat + s.depth
                omega)
              refine ⟨value, last, hloop, houtcome, ?_⟩
              have htext' : (s'.put 46).text = s.text ++ labelAt msg s.i ++ [46] := by
                rw [Decoding.text_put (by rw [hj', Decoding.fetch_j]; omega), htext]
                rfl
              rw [← hspec, htext', ← hi']
              show _ = getObjnameLoop msg destsize fuel s'.i _ s'.depth s'.compressed
              rw [hdepth, hcompressed]
              rfl
          · rw [if_neg hlabel, if_neg hlabel]
            exact ⟨_, _, rfl, h.refused h.fetch_reads rfl, rfl⟩

/-- The function returns for every packet, start and buffer; it returns what `getObjname` returns,
and the buffer holds the same text. Assumes: the sizes and the start are values of `int`. -/
theorem decodeName_spec {index : ℤ} {destsize : ℕ} (dest : ℤ → UInt8)
    (hsize : msg.length < 2147483648) (hindex : index < 2147483648) (hpos : 0 < destsize)
    (hdestsize : destsize < 2147483648) :
    ∃ fuel value last, decodeName msg index destsize dest fuel = some (value, last) ∧
      Decoded msg index destsize value last ∧
      getObjname msg index.toNat destsize = if value = -1 then none else some
      (last.written, value.toNat) := by
  refine ⟨destsize + udpMaxsize + 2, ?_⟩
  have hdatabegin : (packetDatabegin : ℤ) = 12 := rfl
  unfold decodeName getObjname
  simp only
  by_cases hheader : index < packetDatabegin
  · rw [if_pos (Or.inl hheader), if_pos (Or.inl (by omega))]
    exact ⟨_, _, rfl, ⟨by simp, by simp, by simp, by simp, by simp⟩, rfl⟩
  · have hi : toUnsigned index = index.toNat := by
      unfold toUnsigned
      omega
    rw [hi]
    by_cases hbeyond : msg.length ≤ index.toNat
    · rw [if_pos (Or.inr hbeyond), if_pos (Or.inr hbeyond)]
      exact ⟨_, _, rfl, ⟨by simp, by simp, by simp, by simp, by simp⟩, rfl⟩
    · rw [if_neg (not_or_intro hheader hbeyond), if_neg (not_or_intro (by omega) hbeyond)]
      refine decodeLoop_spec hsize hdestsize _ (s := ⟨index.toNat, 0, 0, 0, dest, [], []⟩) ?_
        (by omega)
      exact ⟨Nat.lt_of_not_le hbeyond, Int.le_refl 0, Int.natCast_pos.mpr hpos, Nat.zero_le _,
        by simp, by simp, Or.inl ⟨rfl, Int.self_le_toNat index⟩, by simp⟩

/-! ### The root name -/

theorem PointsToRoot.lt_length {n offset : ℕ} (h : PointsToRoot msg n offset) :
    offset < msg.length := by
  cases h with
  | root hbound => exact hbound
  | pointer hptr hbound => omega

/-- The loop finds no label exactly if pointers lead to a zero byte, no more of them than it
follows. -/
theorem getObjnameLoop_nil_iff {destsize : ℕ} (fuel : ℕ) :
    ∀ {i depth compressed : ℕ}, i < msg.length → depth ≤ udpMaxsize → udpMaxsize < fuel + depth →
      ((∃ next, getObjnameLoop msg destsize fuel i [] depth compressed = some ([], next)) ↔
        ∃ n, (n = 0 ∨ depth + n < msg.length) ∧ depth + n ≤ udpMaxsize ∧ PointsToRoot msg n i) := by
  induction fuel with
  | zero =>
    intro i depth compressed hi hdepth hfuel
    omega
  | succ fuel ih =>
    intro i depth compressed hi hdepth hfuel
    simp only [getObjnameLoop]
    by_cases hzero : byteAt msg i = 0
    · rw [if_pos hzero]
      exact ⟨fun _ ↦ ⟨0, Or.inl rfl, hdepth, .root hi hzero⟩, fun _ ↦ ⟨_, rfl⟩⟩
    · rw [if_neg hzero]
      -- otherwise there is a pointer in front of the zero byte
      have hpointer : ∀ n, PointsToRoot msg n i →
          ∃ m, n = m + 1 ∧ 192 ≤ byteAt msg i ∧ i + 1 < msg.length ∧
            PointsToRoot msg m (pointerTarget msg i) := by
        intro n hn
        cases hn with
        | root _ hbyte => exact absurd hbyte hzero
        | pointer hptr hbound hrest => exact ⟨_, rfl, hptr, hbound, hrest⟩
      by_cases hptr : 192 ≤ byteAt msg i
      · rw [if_pos hptr]
        split_ifs with hnext hlimit htarget
        · refine iff_of_false (by simp) ?_
          rintro ⟨n, -, -, hn⟩
          obtain ⟨m, -, -, hbound, -⟩ := hpointer n hn
          omega
        · refine iff_of_false (by simp) ?_
          rintro ⟨n, hn, hle, hroot⟩
          obtain ⟨m, rfl, -⟩ := hpointer n hroot
          omega
        · refine iff_of_false (by simp) ?_
          rintro ⟨n, -, -, hn⟩
          obtain ⟨m, -, -, -, hrest⟩ := hpointer n hn
          have hlt := hrest.lt_length
          omega
        · rw [ih (by omega) (by omega) (by omega)]
          constructor
          · rintro ⟨m, hm, hle, hrest⟩
            exact ⟨m + 1, Or.inr (by omega), by omega, .pointer hptr (by omega) hrest⟩
          · rintro ⟨n, hn, hle, hroot⟩
            obtain ⟨m, rfl, -, -, hrest⟩ := hpointer n hroot
            exact ⟨m, Or.inr (by omega), by omega, hrest⟩
      · -- the name has a label, or the byte is neither
        refine iff_of_false ?_ ?_
        · rintro ⟨next, hloop⟩
          rw [if_neg hptr] at hloop
          split_ifs at hloop with hnext hlabel hborder hvalid
          obtain ⟨labels, last, -, hout, -⟩ := getObjnameLoop_spec fuel (by omega) hloop
          simp at hout
        · rintro ⟨n, -, -, hn⟩
          obtain ⟨m, -, hbits, -⟩ := hpointer n hn
          exact hptr hbits

/-- `get_objname` accesses only the packet and the buffer, returns a position behind the start and
leaves a terminated string, if and only if the start does not lead to a zero byte over pointers
only: a root name, itself or behind as many pointers as are followed. In each case it returns.
Assumes: the sizes and the start are values of `int`, and the buffer is not empty. -/
theorem decodeName_sound_iff {msg : Packet} {index : ℤ} {destsize : ℕ} (dest : ℤ → UInt8)
    (hsize : msg.length < 2147483648) (hindex : index < 2147483648) (hpos : 0 < destsize)
    (hdestsize : destsize < 2147483648) :
    ∃ fuel value last, decodeName msg index destsize dest fuel = some (value, last) ∧
      (Sound msg index destsize value last ↔
        ¬ (packetDatabegin ≤ index ∧
          ∃ n, n < msg.length ∧ n ≤ udpMaxsize ∧ PointsToRoot msg n index.toNat)) := by
  obtain ⟨fuel, value, last, hrun, houtcome, hspec⟩ :=
    decodeName_spec dest hsize hindex hpos hdestsize
  refine ⟨fuel, value, last, hrun, ?_⟩
  -- the function leaves no text exactly if it finds a root name
  have hroot : (value ≠ -1 ∧ last.j < 0) ↔
    ∃ next, getObjname msg index.toNat destsize = some ([], next) := by
    rw [hspec]
    by_cases hvalue : value = -1
    · rw [if_pos hvalue]
      exact iff_of_false (fun h ↦ h.1 hvalue) (by simp)
    · rw [if_neg hvalue, Decoding.written]
      by_cases hj : last.j < 0
      · rw [if_pos hj]
        exact iff_of_true ⟨hvalue, hj⟩ ⟨_, rfl⟩
      · rw [if_neg hj]
        exact iff_of_false (fun h ↦ hj h.2) (by simp)
  have hchain : (∃ next, getObjname msg index.toNat destsize = some ([], next)) ↔
      packetDatabegin ≤ index ∧ ∃ n, n < msg.length ∧ n ≤ udpMaxsize ∧
        PointsToRoot msg n index.toNat := by
    have hdatabegin : (packetDatabegin : ℤ) = 12 := rfl
    have hdatabegin' : packetDatabegin = 12 := rfl
    unfold getObjname
    by_cases hstart : index.toNat < packetDatabegin ∨ msg.length ≤ index.toNat
    · rw [if_pos hstart]
      refine iff_of_false (by simp) ?_
      rintro ⟨hle, n, -, -, hn⟩
      have hlt := hn.lt_length
      omega
    · rw [if_neg hstart, getObjnameLoop_nil_iff _ (by omega) (Nat.zero_le _) (by omega)]
      constructor
      · rintro ⟨n, hn, hle, hpoints⟩
        exact ⟨by omega, n, by omega, by omega, hpoints⟩
      · rintro ⟨-, n, hn, hle, hpoints⟩
        exact ⟨n, Or.inr (by omega), by omega, hpoints⟩
  rw [← hchain, ← hroot]
  constructor
  · rintro hsound ⟨hvalue, hneg⟩
    have hbefore := hsound.writes _ (houtcome.before hvalue hneg)
    omega
  · intro hinside
    refine ⟨houtcome.reads, houtcome.writes ?_, houtcome.behind, fun hvalue ↦
      ⟨last.j, ?_, houtcome.zero hvalue⟩⟩
    · omega
    · omega

/-- A name of one label behind a pointer. -/
theorem decodeName_sound_pointer :
    ∃ fuel value last, decodeName (List.replicate 12 0 ++ [192, 14, 1, 97, 0]) 12 256
      (fun _ ↦ 65) fuel = some (value, last) ∧
      Sound (List.replicate 12 0 ++ [192, 14, 1, 97, 0]) 12 256 value last := by
  obtain ⟨fuel, value, last, hrun, hsound⟩ :=
    @decodeName_sound_iff (List.replicate 12 0 ++ [192, 14, 1, 97, 0]) 12 256 (fun _ ↦ 65)
      (by decide) (by decide) (by decide) (by decide)
  refine ⟨fuel, value, last, hrun, hsound.mpr ?_⟩
  rintro ⟨-, n, -, -, hn⟩
  cases hn with
  | root _ hzero => exact absurd hzero (by decide)
  | pointer _ _ hrest =>
    cases hrest with
    | root _ hzero => exact absurd hzero (by decide)
    | pointer hptr => exact absurd hptr (by decide)

/-- The root name: the zero goes in front of the buffer, and the buffer keeps what it held. -/
theorem decodeName_root :
    ∃ last, decodeName (List.replicate 12 0 ++ [0, 0, 1, 0, 1]) 12 256 (fun _ ↦ 65) 1 = some
      (13, last) ∧ -1 ∈ last.writes ∧ (∀ k, 0 ≤ k → last.dest k = 65) ∧
      ¬ Sound (List.replicate 12 0 ++ [0, 0, 1, 0, 1]) 12 256 13 last := by
  refine ⟨_, rfl, List.mem_cons_self, fun k hk ↦ Function.update_of_ne ?_ _ _, fun hsound ↦ ?_⟩
  · show k ≠ 0 - 1
    omega
  · exact absurd (hsound.writes (-1) List.mem_cons_self) (by decide)

end CrossBreeder.Dnrd
