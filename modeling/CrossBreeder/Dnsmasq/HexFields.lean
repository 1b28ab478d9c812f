import CrossBreeder.Dnsmasq.DhcpAddresses
import CrossBreeder.Foundation.EndingLoop
import CrossBreeder.Foundation.TextFields
import Mathlib.Data.List.GetD

/-!
# Octets in hexadecimal

`parse_hex` with the bytes that it writes and the places where it writes them, from one buffer to
another and from a buffer into itself. What a text means is read from its pieces (`readPieces`), and
`parseHexRun_eq` is that the program writes just that: a wildcard has a place, and nothing is
written there. With one buffer the text is overwritten while it is read, and its octets are left in
front (`parseHexRun_shared`).
-/

namespace CrossBreeder.Dnsmasq

open Foundation

/-! ### `parse_hex` -/

def isHexEnd (c : UInt8) : Bool := c = 58 ∨ c = 45 ∨ c = 32

/-- The octets of a row of digits, two digits each. -/
def octets : List UInt8 → List UInt8
  | [] => []
  | [c] => [UInt8.ofNat (readNumeral 16 [c])]
  | c :: d :: rest => UInt8.ofNat (readNumeral 16 [c, d]) :: octets rest

def notHex (c : UInt8) : Bool := c ≠ 42 ∧ 16 ≤ digitValue c

def endsPiece (c : UInt8) : Bool := c = 0 ∨ isHexEnd c

/-- The variables of `parse_hex`: the buffer that is read, up to a zero, the place in it, and what
was written to the buffer for the octets. There may be no bound. -/
structure HexState where
  text : List UInt8
  pos : ℕ
  i : ℕ
  maxlen : Option ℕ
  mask : UInt32
  macType : Bool
  type : ℕ
  writes : List (ℕ × UInt8)

/-- What `parse_hex` returns, where nothing stands for -1, and what it leaves behind, with the
buffer that was read. -/
structure HexResult where
  value : Option ℕ
  mask : UInt32
  type : ℕ
  writes : List (ℕ × UInt8)
  text : List UInt8

namespace HexState

def result (s : HexState) (value : Option ℕ) : HexResult :=
  ⟨value, s.mask, s.type, s.writes, s.text⟩

/-- An octet is written, in the buffer that is read as well if there is one only. -/
def store (shared : Bool) (s : HexState) (octet : UInt8) : HexState :=
  { s with
    text := if shared then s.text.set s.i octet else s.text
    writes := s.writes ++ [(s.i, octet)]
    mask := s.mask <<< 1
    i := s.i + 1 }

/-- The loop over the octets of a row of digits. The character behind two digits is cleared for
`strtol` and set again. -/
def storeOctets (shared : Bool) : ℕ → ℕ → HexState → HexState
  | 0, _, s => s
  | bytes + 1, place, s =>
    storeOctets shared bytes (place + 2)
      (s.store shared (UInt8.ofNat (readNumeral 16 ((s.text.drop place).take 2))))

def storePiece (shared : Bool) (s : HexState) (piece : List UInt8) (c : UInt8) : HexState :=
  if piece = [] then s
  else if c = 45 ∧ s.i = 0 ∧ s.macType then
    { s with
      text := s.text.set (s.pos + piece.length) 0, type := readNumeral 16 piece, macType := false }
  else if piece = [42] then
    { s with
      text := s.text.set (s.pos + piece.length) 0, mask := (s.mask <<< 1) ||| 1, i := s.i + 1 }
  else storeOctets shared ((1 + piece.length) / 2) s.pos { s with
    text := s.text.set (s.pos + piece.length) 0 }

end HexState

/-- A round of `parse_hex`. -/
def hexRound (shared : Bool) (s : HexState) : Round HexState HexResult :=
  if s.maxlen.any (fun maxlen ↦ maxlen ≤ s.i) then .ret (s.result (some s.i))
  else
    let piece := (s.text.drop s.pos).takeWhile fun c ↦ !endsPiece c
    if piece.any notHex then .ret (s.result none)
    else
      let c := s.text.getD (s.pos + piece.length) 0
      let after :=
        HexState.storePiece shared { s with maxlen := if c = 0 then some s.i else s.maxlen } piece c
      .again { after with pos := s.pos + piece.length + 1 }

/-- `parse_hex`, with a bound on the rounds of its loop. -/
def parseHexRun (shared : Bool) (maxlen : Option ℕ) (macType : Bool) (text : List UInt8)
    (rounds : ℕ) : Option HexResult :=
  runRounds (hexRound shared) rounds ⟨text, 0, 0, maxlen, 0, macType, 0, []⟩

/-- `parse_hex` from a buffer into itself: the octets that it leaves in front, and the type. -/
def parseHex (maxlen : ℕ) (macType : Bool) (text : List UInt8) : Option (List UInt8 × ℕ) :=
  (parseHexRun true (some maxlen) macType text (text.length + 2)).bind fun result ↦
    result.value.map fun count ↦ (result.text.take count, result.type)

/-! ### What a text means -/

/-- The pieces of a text, with what ends them. -/
def hexPieces : List UInt8 → List (List UInt8 × Option UInt8)
  | [] => [([], none)]
  | c :: rest =>
    if isHexEnd c then ([], some c) :: hexPieces rest
    else match hexPieces rest with
      | [] => [([c], none)]
      | (piece, last) :: pieces => (c :: piece, last) :: pieces

def pieceOctets (piece : List UInt8) : List (Option UInt8) := if piece =
    [42] then [none] else (octets piece).map some

/-- The octets that are read, whether all characters were right, and the type in front of them. -/
structure HexReading where
  ok : Bool
  octets : List (Option UInt8)
  type : ℕ

/-- Pieces are read up to a bound, with the octets so far, whether a type may still come, and the
type. -/
def readPieces (maxlen : Option ℕ) : List (List UInt8 × Option UInt8) → List (Option UInt8) → Bool →
    ℕ → HexReading
  | [], done, _, type => ⟨true, done, type⟩
  | (piece, last) :: rest, done, macType, type =>
    if maxlen.any (fun maxlen ↦ maxlen ≤ done.length) then ⟨true, done, type⟩
    else if piece.any notHex then ⟨false, done, type⟩
    else if piece ≠ [] ∧ last = some 45 ∧ done = [] ∧ macType then
      readPieces maxlen rest done false (readNumeral 16 piece)
    else readPieces maxlen rest (done ++ pieceOctets piece) macType type

def placed (start : ℕ) (done : List (Option UInt8)) : List (ℕ × UInt8) :=
  (done.zipIdx start).filterMap fun (octet, place) ↦ octet.map fun value ↦ (place, value)

theorem placed_append (start : ℕ) (done more : List (Option UInt8)) :
    placed start (done ++ more) = placed start done ++ placed (start + done.length) more := by
  unfold placed
  rw [List.zipIdx_append, List.filterMap_append]

theorem placed_map_some (start : ℕ) (values : List UInt8) :
    placed start (values.map some) = (values.zipIdx start).map Prod.swap := by
  induction values generalizing start with
  | nil => rfl
  | cons value values ih =>
    rw [List.map_cons, List.zipIdx_cons, List.map_cons, ← ih]
    rfl

theorem lt_of_mem_placed {start : ℕ} {done : List (Option UInt8)} {write : ℕ × UInt8}
    (h : write ∈ placed start done) : write.1 < start + done.length := by
  obtain ⟨⟨octet, place⟩, hmem, hwrite⟩ := List.mem_filterMap.mp h
  obtain ⟨value, -, rfl⟩ := Option.map_eq_some_iff.mp hwrite
  exact List.snd_lt_add_of_mem_zipIdx hmem

theorem length_octets (piece : List UInt8) : (octets piece).length = (1 + piece.length) / 2 := by
  induction piece using octets.induct with
  | case1 => rfl
  | case2 c => simp [octets]
  | case3 c d rest ih =>
    rw [octets, List.length_cons, ih]
    simp only [List.length_cons]
    omega

theorem length_pieceOctets (piece : List UInt8) :
    (pieceOctets piece).length = (1 + piece.length) / 2 := by
  unfold pieceOctets
  split_ifs with hstar
  · rw [hstar]
    rfl
  · rw [List.length_map, length_octets]

theorem hexPieces_eq (text : List UInt8) :
    hexPieces text =
      (text.takeWhile fun c ↦ !isHexEnd c, (text.dropWhile fun c ↦ !isHexEnd c).head?) ::
      match text.dropWhile fun c ↦ !isHexEnd c with
      | [] => []
      | _ :: rest => hexPieces rest := by
  induction text with
  | nil => rfl
  | cons c rest ih =>
    rw [hexPieces]
    cases hc : isHexEnd c with
    | true => simp [hc]
    | false =>
      rw [ih]
      simp [hc]

/-! ### The program writes what a text means -/

theorem endsPiece_of_ne {c : UInt8} (hzero : c ≠ 0) :
    endsPiece c = isHexEnd c := by simp [endsPiece, hzero]

theorem cString_cons_of_ne {c : UInt8} (hzero : c ≠ 0) (rest : List UInt8) :
    cString (c :: rest) = c :: cString rest :=
  List.takeWhile_cons_of_pos (by simp [hzero])

theorem takeWhile_cString (text : List UInt8) :
    (text.takeWhile fun c ↦ !endsPiece c) = (cString text).takeWhile fun c ↦ !isHexEnd c := by
  induction text with
  | nil => rfl
  | cons c rest ih =>
    by_cases hzero : c = 0
    · simp [hzero, endsPiece, cString]
    · rw [cString_cons_of_ne hzero, List.takeWhile_cons, List.takeWhile_cons, endsPiece_of_ne hzero,
        ih]

theorem dropWhile_cString (text : List UInt8) :
    ((cString text).dropWhile fun c ↦ !isHexEnd c) = cString
      (text.dropWhile fun c ↦ !endsPiece c) := by
  induction text with
  | nil => rfl
  | cons c rest ih =>
    by_cases hzero : c = 0
    · simp [hzero, endsPiece, cString]
    · rw [cString_cons_of_ne hzero, List.dropWhile_cons, List.dropWhile_cons, endsPiece_of_ne hzero,
        ih]
      split_ifs
      · rfl
      · exact (cString_cons_of_ne hzero rest).symm

theorem readNumeral_take (c : UInt8) {tail : List UInt8} (htail : tail.headD 0 = 0) :
    readNumeral 16 ((c :: tail).take 2) = readNumeral 16 [c] := by
  have hzero : digitValue 0 = 36 := rfl
  cases tail with
  | nil => rfl
  | cons d rest =>
    obtain rfl : d = 0 := htail
    unfold readNumeral
    by_cases hc : digitValue c < 16
    · simp [hc, hzero]
    · simp [hc]

/-! ### The buffer that is read into itself -/

/-- What a wildcard leaves at its place: the character there, where what ends a piece is cleared
unless the piece is empty. -/
def staleByte (text : List UInt8) (i : ℕ) : UInt8 :=
  if isHexEnd (text.getD i 0) ∧ 0 < i ∧ isHexEnd (text.getD (i - 1) 0) = false then
    0 else text.getD i 0

structure ReadInto (orig : List UInt8) (done : List (Option UInt8)) (pos : ℕ) (text : List UInt8) :
    Prop where
  length : text.length = orig.length
  le_pos : done.length ≤ pos
  le_length : done.length ≤ orig.length
  behind : ∀ k < pos, text.getD k 0 = (done.getD k none).getD (staleByte orig k)
  ahead : ∀ k, pos ≤ k → text.getD k 0 = orig.getD k 0

def BeginsPiece (text : List UInt8) (pos : ℕ) :
    Prop := pos = 0 ∨ isHexEnd (text.getD (pos - 1) 0) = true

theorem getD_set (text : List UInt8) (i k : ℕ) (value : UInt8) :
    (text.set i value).getD k 0 = if i = k ∧ i < text.length then value else text.getD k 0 := by
  simp only [List.getD_eq_getElem?_getD, List.getElem?_set]
  by_cases hik : i = k
  · by_cases hlt : i < text.length
    · simp [hik, hik ▸ hlt]
    · simp [hik, hik ▸ hlt]
  · simp [hik]

theorem getD_append_singleton (done : List (Option UInt8)) (octet : Option UInt8) (k : ℕ) :
    (done ++ [octet]).getD k none = if k = done.length then octet else done.getD k none := by
  rcases lt_trichotomy k done.length with hlt | rfl | hgt
  · rw [List.getD_append _ _ _ _ hlt, if_neg hlt.ne]
  · simp
  · rw [if_neg hgt.ne', List.getD_eq_default _ _ (by rw [List.length_append]; exact hgt),
      List.getD_eq_default _ _ hgt.le]

namespace ReadInto

variable {orig text : List UInt8} {done : List (Option UInt8)} {pos : ℕ}

theorem start (orig : List UInt8) : ReadInto orig [] 0 orig where
  length := rfl
  le_pos := le_rfl
  le_length := Nat.zero_le _
  behind := fun _ hk ↦ absurd hk (Nat.not_lt_zero _)
  ahead := fun _ _ ↦ rfl

theorem wildcard (h : ReadInto orig done pos text) (hpos : done.length + 1 ≤ pos)
    (hlength : done.length + 1 ≤ orig.length) : ReadInto orig (done ++ [none]) pos text := by
  refine ⟨h.length,
    by rwa [List.length_append], by rwa [List.length_append], fun k hk ↦ ?_, h.ahead⟩
  rw [h.behind k hk, getD_append_singleton]
  split_ifs with hlast
  · rw [hlast, List.getD_eq_default _ _ le_rfl]
  · rfl

theorem store {i : ℕ} (h : ReadInto orig done pos text) (hcount : i = done.length)
    (hpos : i + 1 ≤ pos) (hlength : i + 1 ≤ orig.length) (octet : UInt8) :
    ReadInto orig (done ++ [some octet]) pos (text.set i octet) := by
  subst hcount
  refine ⟨List.length_set.trans h.length, by rwa [List.length_append], by rwa [List.length_append],
    fun k hk ↦ ?_, fun k hk ↦ ?_⟩
  · have hlen := h.length
    rw [getD_set, getD_append_singleton]
    by_cases hlast : k = done.length
    · rw [if_pos hlast, if_pos ⟨hlast.symm, by omega⟩, Option.getD_some]
    · rw [if_neg hlast, if_neg fun hin ↦ hlast hin.1.symm]
      exact h.behind k hk
  · rw [getD_set, if_neg (by omega)]
    exact h.ahead k hk

theorem pass (h : ReadInto orig done pos text) (hbegins : BeginsPiece orig pos)
    {piece tail : List UInt8} (htext : text.drop pos = piece ++ tail)
    (hpiece : ∀ c ∈ piece, isHexEnd c = false)
    (htail : tail.headD 0 = 0 ∨ isHexEnd (tail.headD 0) = true) :
    ReadInto orig done (pos + piece.length + 1)
      (if piece = [] then text else text.set (pos + piece.length) 0) := by
  have hle := h.le_pos
  have hchar : ∀ j, orig.getD (pos + j) 0 = (piece ++ tail).getD j 0 := fun j ↦ by
    rw [← h.ahead _ (Nat.le_add_right pos j), ← htext, List.getD_eq_getElem?_getD,
      List.getD_eq_getElem?_getD, List.getElem?_drop]
  have hplain : ∀ k, pos ≤ k → k < pos + piece.length → isHexEnd (orig.getD k 0) = false := by
    intro k hk hlt
    obtain ⟨j, rfl⟩ := Nat.exists_eq_add_of_le hk
    have hj : j < piece.length := by omega
    rw [hchar, List.getD_append _ _ _ _ hj, List.getD_eq_getElem _ _ hj]
    exact hpiece _ (List.getElem_mem hj)
  have hend : orig.getD (pos + piece.length) 0 = tail.headD 0 := by
    rw [hchar, List.getD_append_right _ _ _ _ le_rfl, Nat.sub_self]
    cases tail <;> rfl
  have hnone : ∀ k, pos ≤ k → done.getD k none = none :=
    fun k hk ↦ List.getD_eq_default _ _ (hle.trans hk)
  have hother : ∀ k, k ≠ pos + piece.length →
      (if piece = [] then text else text.set (pos + piece.length) 0).getD k 0 = text.getD k 0 := by
    intro k hk
    split_ifs
    · rfl
    · rw [getD_set, if_neg fun hin ↦ hk hin.1.symm]
  refine ⟨?_, by omega, h.le_length, fun k hk ↦ ?_, fun k hk ↦ ?_⟩
  · split_ifs
    · exact h.length
    · exact List.length_set.trans h.length
  · by_cases hfront : k < pos
    · rw [hother k (by omega)]
      exact h.behind k hfront
    have hk' : pos ≤ k := Nat.le_of_not_lt hfront
    rw [hnone k hk', Option.getD_none]
    by_cases hinside : k < pos + piece.length
    · have hstale : staleByte orig k = orig.getD k 0 :=
        if_neg fun hin ↦ Bool.false_ne_true ((hplain k hk' hinside).symm.trans hin.1)
      rw [hother k (by omega), h.ahead k hk', hstale]
    obtain rfl : k = pos + piece.length := by omega
    by_cases hempty : piece = []
    · -- the place of an empty piece is not cleared
      have hstale : staleByte orig (pos + piece.length) = orig.getD (pos + piece.length) 0 := by
        refine if_neg fun hin ↦ ?_
        rw [hempty, List.length_nil, Nat.add_zero] at hin
        rcases hbegins with hzero | hsep
        · exact absurd hin.2.1 (by omega)
        · exact Bool.false_ne_true (hin.2.2.symm.trans hsep)
      rw [if_pos hempty, hstale]
      exact h.ahead _ hk'
    · have hpos : 0 < piece.length := List.length_pos_iff.mpr hempty
      have hbefore : isHexEnd (orig.getD (pos + piece.length - 1) 0) = false :=
        hplain _ (by omega) (by omega)
      have hcleared : (text.set (pos + piece.length) 0).getD (pos + piece.length) 0 = 0 := by
        rw [getD_set]
        split_ifs with hin
        · rfl
        · exact List.getD_eq_default _ _ (Nat.le_of_not_lt fun hlt ↦ hin ⟨rfl, hlt⟩)
      rw [if_neg hempty, hcleared]
      unfold staleByte
      rw [hend]
      rcases htail with hzero | hsep
      · have hnot : isHexEnd (tail.headD 0) = false := by rw [hzero]; rfl
        rw [if_neg fun hin ↦ Bool.false_ne_true (hnot.symm.trans hin.1), hzero]
      · rw [if_pos ⟨hsep, by omega, hbefore⟩]
  · rw [hother k (by omega)]
    exact h.ahead k (by omega)

end ReadInto

section Store

variable (shared : Bool)

theorem HexState.drop_store {s : HexState} {place : ℕ} (octet : UInt8) (h : s.i < place) :
    (s.store shared octet).text.drop place = s.text.drop place := by
  unfold HexState.store
  split_ifs
  · rw [List.drop_set, if_pos h]
  · rfl

theorem HexState.length_store (s : HexState) (octet : UInt8) :
    (s.store shared octet).text.length = s.text.length := by
  unfold HexState.store
  split_ifs
  · exact List.length_set
  · rfl

theorem HexState.storeOctets_spec (piece : List UInt8) :
    ∀ (place : ℕ) (tail : List UInt8) (s : HexState),
    s.i ≤ place → s.text.drop place = piece ++ tail → tail.headD 0 = 0 →
      ∃ text mask, storeOctets shared ((1 + piece.length) / 2) place s =
          { s with
            text := text, mask := mask, i := s.i + (octets piece).length
            writes := s.writes ++ ((octets piece).zipIdx s.i).map Prod.swap } ∧
        text.drop (place + piece.length) = tail ∧
        (shared = true → ∀ orig done pos, ReadInto orig done pos s.text → s.i = done.length →
          s.i + (octets piece).length ≤ pos → s.i + (octets piece).length ≤ orig.length →
            ReadInto orig (done ++ (octets piece).map some) pos text) := by
  induction piece using octets.induct with
  | case1 =>
    intro place tail s _ htext _
    refine ⟨s.text, s.mask, by simp [storeOctets, octets], htext, fun _ orig done pos h _ _ _ ↦ ?_⟩
    rwa [octets, List.map_nil, List.append_nil]
  | case2 c =>
    intro place tail s hplace htext htail
    have hread : readNumeral 16 ((s.text.drop place).take 2) = readNumeral 16 [c] := by
      rw [htext]
      exact readNumeral_take c htail
    refine ⟨(s.store shared (UInt8.ofNat (readNumeral 16 [c]))).text, s.mask <<< 1, ?_, ?_, ?_⟩
    · have hbytes : (1 + [c].length) / 2 = 0 + 1 := by simp
      rw [hbytes, storeOctets, hread, storeOctets]
      simp [store, octets]
    · rw [List.length_singleton,
        drop_store shared _ (show s.i < place + 1 by omega), ← List.drop_drop, htext]
      rfl
    · rintro rfl orig done pos h hcount hpos hlength
      exact h.store hcount hpos hlength _
  | case3 c d rest ih =>
    intro place tail s hplace htext htail
    have hread : (s.text.drop place).take 2 = [c, d] := by
      rw [htext]
      rfl
    have hbytes : (1 + (c :: d :: rest).length) / 2 = (1 + rest.length) / 2 + 1 := by
      simp only [List.length_cons]
      omega
    have hnext : (s.store shared (UInt8.ofNat (readNumeral 16 [c, d]))).text.drop (place + 2) =
      rest ++ tail := by
      rw [drop_store shared _ (show s.i < place + 2 by omega), ← List.drop_drop, htext]
      rfl
    obtain ⟨text, mask, hstore, hdrop, hinto⟩ :=
      ih (place + 2) tail (s.store shared (UInt8.ofNat (readNumeral 16 [c, d])))
      (show s.i + 1 ≤ place + 2 by omega) hnext htail
    refine ⟨text, mask, ?_, ?_, ?_⟩
    · rw [hbytes, storeOctets, hread, hstore]
      simp only [store, octets, List.length_cons, List.zipIdx_cons, List.map_cons,
        Prod.swap_prod_mk, List.append_assoc, List.singleton_append]
      rw [Nat.add_right_comm, Nat.add_assoc s.i]
    · rw [← hdrop]
      simp only [List.length_cons]
      congr 1
      omega
    · rintro rfl orig done pos h hcount hpos hlength
      rw [octets, List.length_cons] at hpos hlength
      have hfirst :=
        h.store hcount (show s.i + 1 ≤ pos by omega) (show s.i + 1 ≤ orig.length by omega)
        (UInt8.ofNat (readNumeral 16 [c, d]))
      have hrest := hinto rfl orig _ pos hfirst (by rw [List.length_append, ← hcount]; rfl)
        (show s.i + 1 + (octets rest).length ≤ pos by omega)
        (show s.i + 1 + (octets rest).length ≤ orig.length by omega)
      rwa [List.append_assoc] at hrest

theorem HexState.storePiece_spec {s : HexState} {piece tail : List UInt8} (c : UInt8)
    (hplace : s.i ≤ s.pos) (htext : s.text.drop s.pos = piece ++ tail) :
    ∃ text mask, storePiece shared s piece c =
        (if piece ≠ [] ∧ c = 45 ∧ s.i = 0 ∧ s.macType then
          { s with text := text, mask := mask, type := readNumeral 16 piece, macType := false }
        else
          { s with
            text := text, mask := mask, i := s.i + (pieceOctets piece).length
            writes := s.writes ++ placed s.i (pieceOctets piece) }) ∧
      text.drop (s.pos + piece.length + 1) = tail.tail ∧
      (shared = true → (∀ c ∈ piece, isHexEnd c = false) →
        (tail.headD 0 = 0 ∨ isHexEnd (tail.headD 0) = true) →
        ∀ orig done, ReadInto orig done s.pos s.text → s.i = done.length → BeginsPiece orig s.pos →
          ReadInto orig (if piece ≠ [] ∧ c = 45 ∧ s.i = 0 ∧ s.macType then done
            else done ++ pieceOctets piece) (s.pos + piece.length + 1) text) := by
  -- the character that ends the piece is cleared
  have hcleared : (s.text.set (s.pos + piece.length) 0).drop s.pos = piece ++ tail.set 0 0 := by
    rw [List.drop_set,
      if_neg (by omega), htext, Nat.add_sub_cancel_left, List.set_append, if_neg (by omega),
      Nat.sub_self]
  have hbehind : (s.text.set (s.pos + piece.length) 0).drop (s.pos + piece.length + 1) =
    tail.tail := by
    rw [List.drop_set, if_pos (Nat.lt_succ_self _), Nat.add_assoc, ← List.drop_drop, htext,
      ← List.drop_drop, List.drop_left, List.drop_one]
  unfold storePiece
  by_cases hempty : piece = []
  · refine ⟨s.text, s.mask, ?_, ?_, fun _ hpiece htail orig done h _ hbegins ↦ ?_⟩
    · simp [hempty, pieceOctets, octets, placed]
    · rw [hempty] at htext ⊢
      rw [List.length_nil, Nat.add_zero, ← List.drop_drop, htext, List.nil_append, List.drop_one]
    · have hpassed := h.pass hbegins htext hpiece htail
      rw [if_pos hempty] at hpassed
      simpa [hempty, pieceOctets, octets] using hpassed
  · have hpass : (∀ c ∈ piece, isHexEnd c = false) →
      (tail.headD 0 = 0 ∨ isHexEnd (tail.headD 0) = true) →
        ∀ orig done, ReadInto orig done s.pos s.text → BeginsPiece orig s.pos →
          ReadInto orig done (s.pos + piece.length + 1) (s.text.set (s.pos + piece.length) 0) ∧
            s.pos + piece.length ≤ orig.length := by
      intro hpiece htail orig done h hbegins
      have hpassed := h.pass hbegins htext hpiece htail
      rw [if_neg hempty] at hpassed
      have hlength := congrArg List.length htext
      rw [List.length_drop, List.length_append, h.length] at hlength
      have hpos := List.length_pos_iff.mpr hempty
      exact ⟨hpassed, by omega⟩
    simp only [ne_eq, hempty, not_false_eq_true, true_and, if_false]
    split_ifs with htype hstar
    · exact ⟨_, s.mask, rfl, hbehind, fun _ hpiece htail orig done h _ hbegins ↦
        (hpass hpiece htail orig done h hbegins).1⟩
    · refine ⟨_, (s.mask <<< 1) ||| 1, ?_, hbehind,
        fun _ hpiece htail orig done h hcount hbegins ↦ ?_⟩
      · simp [hstar, pieceOctets, placed]
      · obtain ⟨hpassed, hlength⟩ := hpass hpiece htail orig done h hbegins
        have hone : piece.length = 1 := by rw [hstar]; rfl
        have hoctets : pieceOctets piece = [none] := by rw [hstar]; rfl
        rw [hoctets]
        exact hpassed.wildcard (by omega) (by omega)
    · obtain ⟨text, mask, hstore, hdrop, hinto⟩ :=
        storeOctets_spec shared piece s.pos (tail.set 0 0)
        { s with text := s.text.set (s.pos + piece.length) 0 } hplace hcleared
          (by cases tail <;> rfl)
      refine ⟨text, mask, ?_, ?_, fun hshared hpiece htail orig done h hcount hbegins ↦ ?_⟩
      · rw [hstore]
        simp only [pieceOctets, hstar, if_false, List.length_map, placed_map_some]
      · rw [← List.drop_drop, hdrop]
        cases tail <;> rfl
      · obtain ⟨hpassed, hlength⟩ := hpass hpiece htail orig done h hbegins
        have hoctets := length_octets piece
        have hpos := List.length_pos_iff.mpr hempty
        have hall :=
          hinto hshared orig done _ hpassed hcount (show s.i + (octets piece).length ≤ _ by omega)
          (show s.i + (octets piece).length ≤ _ by omega)
        rwa [pieceOctets, if_neg hstar]

end Store

def HexState.pieces (s : HexState) : List (List UInt8 × Option UInt8) :=
  hexPieces (cString (s.text.drop s.pos))

theorem HexState.pieces_eq {s : HexState} {piece tail : List UInt8}
    (hpiece : ((s.text.drop s.pos).takeWhile fun c ↦ !endsPiece c) = piece)
    (htail : ((s.text.drop s.pos).dropWhile fun c ↦ !endsPiece c) = tail) :
    s.pieces = (piece, (cString tail).head?) :: match cString tail with
      | [] => []
      | _ :: rest => hexPieces rest := by
  unfold pieces
  rw [hexPieces_eq, ← takeWhile_cString, dropWhile_cString, hpiece, htail]

structure HasRead (shared : Bool) (s : HexState) (done : List (Option UInt8)) (reading : HexReading)
    (result : HexResult) : Prop where
  value : result.value = if reading.ok then some reading.octets.length else none
  type : result.type = reading.type
  writes : result.writes = placed 0 reading.octets
  text : shared = true → ∀ orig, ReadInto orig done s.pos s.text → BeginsPiece orig s.pos →
    ∃ pos, ReadInto orig reading.octets pos result.text

/-- What is read behind a good piece: the octets, whether a type may still come, and the type. -/
def afterPiece (piece : List UInt8) (last : Option UInt8) (done : List (Option UInt8))
    (macType : Bool) (type : ℕ) : List (Option UInt8) × Bool × ℕ :=
  if piece ≠ [] ∧ last = some 45 ∧ done = [] ∧ macType then (done, false, readNumeral 16 piece)
  else (done ++ pieceOctets piece, macType, type)

section Rounds

variable {shared : Bool} {s : HexState} {done : List (Option UInt8)} {piece tail : List UInt8}

theorem readPieces_cons {maxlen : Option ℕ} {last : Option UInt8}
    {rest : List (List UInt8 × Option UInt8)} {macType : Bool} {type : ℕ}
    (hbound : ¬ maxlen.any (fun maxlen ↦ maxlen ≤ done.length) = true)
    (hbad : ¬ piece.any notHex = true) :
    readPieces maxlen ((piece, last) :: rest) done macType type =
      readPieces maxlen rest (afterPiece piece last done macType type).1
        (afterPiece piece last done macType type).2.1
        (afterPiece piece last done macType type).2.2 := by
  rw [readPieces, if_neg hbound, if_neg hbad]
  unfold afterPiece
  split_ifs <;> rfl

theorem afterPiece_zero (macType : Bool) (type : ℕ) :
    afterPiece piece (some 0) done macType type = (done ++ pieceOctets piece, macType, type) :=
  if_neg fun h ↦ absurd h.2.1 (by decide)

theorem afterPiece_none (macType : Bool) (type : ℕ) :
    afterPiece piece none done macType type = (done ++ pieceOctets piece, macType, type) :=
  if_neg fun h ↦ Option.some_ne_none _ h.2.1.symm

theorem HexState.piece_plain
    (hpiece : ((s.text.drop s.pos).takeWhile fun c ↦ !endsPiece c) = piece) :
    ∀ c ∈ piece, isHexEnd c = false := by
  intro c hmem
  rw [← hpiece] at hmem
  have hends := List.mem_takeWhile_imp hmem
  simp only [endsPiece, Bool.not_eq_true', decide_eq_false_iff_not, not_or,
    Bool.not_eq_true] at hends
  exact hends.2

theorem HexState.piece_ends
    (htail : ((s.text.drop s.pos).dropWhile fun c ↦ !endsPiece c) = tail) :
    tail.headD 0 = 0 ∨ isHexEnd (tail.headD 0) = true := by
  cases tail with
  | nil => exact .inl rfl
  | cons first rest =>
    have hfirst := List.head?_dropWhile_not (fun c ↦ !endsPiece c) (s.text.drop s.pos)
    rw [htail] at hfirst
    refine or_iff_not_imp_left.mpr ?_
    simpa [endsPiece] using hfirst

/-- A round on a good piece reads it, and what ends it is behind the new place. -/
theorem hexRound_again (hpiece : ((s.text.drop s.pos).takeWhile fun c ↦ !endsPiece c) = piece)
    (htail : ((s.text.drop s.pos).dropWhile fun c ↦ !endsPiece c) = tail)
    (hcount : s.i = done.length) (hplace : s.i ≤ s.pos) (hwrites : s.writes = placed 0 done)
    (hbound : ¬ s.maxlen.any (fun maxlen ↦ maxlen ≤ done.length) = true)
    (hbad : ¬ piece.any notHex = true) :
    ∃ text mask after, afterPiece piece (some (tail.headD 0)) done s.macType s.type = after ∧
      hexRound shared s = .again
        ⟨text, s.pos + piece.length + 1, after.1.length,
          if tail.headD 0 = 0 then some s.i else s.maxlen, mask, after.2.1, after.2.2,
          placed 0 after.1⟩ ∧
      text.drop (s.pos + piece.length + 1) = tail.tail ∧
      after.1.length ≤ s.pos + piece.length + 1 ∧
      (shared = true → ∀ orig, ReadInto orig done s.pos s.text → BeginsPiece orig s.pos →
        ReadInto orig after.1 (s.pos + piece.length + 1) text ∧
          (tail.headD 0 ≠ 0 → BeginsPiece orig (s.pos + piece.length + 1))) := by
  have htext : s.text.drop s.pos = piece ++ tail := by
    rw [← hpiece, ← htail, List.takeWhile_append_dropWhile]
  have hchar : s.text.getD (s.pos + piece.length) 0 = tail.headD 0 := by
    rw [List.getD_eq_getElem?_getD, ← List.getElem?_drop, htext,
      List.getElem?_append_right le_rfl, Nat.sub_self]
    cases tail <;> rfl
  have hends := HexState.piece_ends htail
  generalize tail.headD 0 = c at hchar hends ⊢
  obtain ⟨text, mask, hstore, hdrop, hinto⟩ := @HexState.storePiece_spec shared
    { s with maxlen := if c = 0 then some s.i else s.maxlen } piece tail c hplace htext
  have hround : hexRound shared s = .again { HexState.storePiece shared
      { s with maxlen := if c = 0 then some s.i else s.maxlen } piece c with
        pos := s.pos + piece.length + 1 } := by
    unfold hexRound
    rw [hcount, if_neg hbound]
    rw [hpiece, if_neg hbad, hchar]
  have hlength := length_pieceOctets piece
  have hplain := HexState.piece_plain hpiece
  have hnext : ∀ orig, ReadInto orig done s.pos s.text → c ≠ 0 →
      BeginsPiece orig (s.pos + piece.length + 1) := by
    intro orig h hc
    refine .inr ?_
    rw [Nat.add_sub_cancel, ← h.ahead _ (Nat.le_add_right _ _), hchar]
    exact hends.resolve_left hc
  rw [hstore] at hround
  have hiff : (piece ≠ [] ∧ some c = some 45 ∧ done = [] ∧ s.macType = true) ↔
      (piece ≠ [] ∧ c = 45 ∧ s.i = 0 ∧ s.macType = true) := by
    rw [hcount, List.length_eq_zero_iff, Option.some_inj]
  refine ⟨text, mask, _, rfl, ?_, hdrop, ?_, fun hshared orig h hbegins ↦
    ⟨?_, hnext orig h⟩⟩
  · rw [hround]
    simp only [afterPiece, hiff]
    split_ifs <;> simp [hcount, hwrites, placed_append]
  · simp only [afterPiece, hiff]
    split_ifs
    · show done.length ≤ _
      omega
    · show (done ++ pieceOctets piece).length ≤ _
      rw [List.length_append]
      omega
  · have hnow := hinto hshared hplain (HexState.piece_ends htail) orig done h hcount hbegins
    simp only [afterPiece, hiff]
    split_ifs at hnow ⊢ <;> exact hnow

/-- From every place on, the program does what the pieces say, in a round for each of them and one
more. -/
theorem runRounds_readPieces (shared : Bool) (pieces : List (List UInt8 × Option UInt8)) :
    ∀ (s : HexState) (done : List (Option UInt8)), s.pieces = pieces → s.i = done.length →
      s.i ≤ s.pos → s.writes = placed 0 done →
        ∃ result, runRounds (hexRound shared) (pieces.length + 1) s = some result ∧
          HasRead shared s done (readPieces s.maxlen pieces done s.macType s.type) result := by
  induction pieces with
  | nil =>
    intro s done hpieces
    unfold HexState.pieces at hpieces
    rw [hexPieces_eq] at hpieces
    exact absurd hpieces (by simp)
  | cons head rest ih =>
    intro s done hpieces hcount hplace hwrites
    generalize hpiece : ((s.text.drop s.pos).takeWhile fun c ↦ !endsPiece c) = piece
    generalize htail : ((s.text.drop s.pos).dropWhile fun c ↦ !endsPiece c) = tail
    rw [HexState.pieces_eq hpiece htail] at hpieces
    obtain ⟨rfl, hrest⟩ := List.cons.inj hpieces
    by_cases hbound : s.maxlen.any (fun maxlen ↦ maxlen ≤ done.length) = true
    · rw [readPieces, if_pos hbound]
      have hround : hexRound shared s = .ret (s.result (some s.i)) := by
        unfold hexRound
        rw [hcount, if_pos hbound]
      refine ⟨_, by rw [runRounds, hround], ?_, rfl, hwrites, fun _ orig h _ ↦ ⟨s.pos, h⟩⟩
      simp [HexState.result, hcount]
    by_cases hbad : piece.any notHex = true
    · rw [readPieces, if_neg hbound, if_pos hbad]
      have hround : hexRound shared s = .ret (s.result none) := by
        unfold hexRound
        rw [hcount, if_neg hbound]
        rw [hpiece, if_pos hbad]
      exact ⟨_, by rw [runRounds, hround], rfl, rfl, hwrites, fun _ orig h _ ↦ ⟨s.pos, h⟩⟩
    obtain ⟨text, mask, after, hafter, hround, hdrop, hplace', hinto⟩ :=
      @hexRound_again shared s done piece tail hpiece htail hcount hplace hwrites hbound hbad
    rw [readPieces_cons hbound hbad]
    by_cases hzero : tail.headD 0 = 0
    · -- the last piece: what was written is over the bound that is set
      have hnil : cString tail = [] := by
        cases tail with
        | nil => rfl
        | cons first tail =>
          obtain rfl : first = 0 := hzero
          rfl
      rw [hnil] at hrest ⊢
      obtain rfl : rest = [] := hrest.symm
      rw [hzero, afterPiece_zero] at hafter
      rw [if_pos hzero] at hround
      subst hafter
      rw [List.head?_nil, afterPiece_none]
      have hlast : hexRound shared ⟨text, s.pos + piece.length + 1,
          (done ++ pieceOctets piece).length, some s.i, mask, s.macType, s.type,
          placed 0 (done ++ pieceOctets piece)⟩ =
          .ret ⟨some (done ++ pieceOctets piece).length, mask, s.type, _, text⟩ :=
        if_pos (by simp [hcount])
      refine ⟨⟨_, mask, s.type, _, text⟩, ?_, rfl, rfl, rfl,
        fun hshared orig h hbegins ↦ ⟨_, (hinto hshared orig h hbegins).1⟩⟩
      rw [List.length_singleton, runRounds, hround]
      dsimp only
      rw [runRounds, hlast]
      rfl
    · obtain ⟨c, tail, rfl⟩ : ∃ c t, tail = c :: t := by
        cases tail with
        | nil => exact absurd rfl hzero
        | cons first tail => exact ⟨first, tail, rfl⟩
      rw [cString_cons_of_ne (show c ≠ 0 from hzero)] at hrest ⊢
      rw [if_neg hzero] at hround
      rw [List.head?_cons, show (some c : Option UInt8) = some ((c :: tail).headD 0) from rfl,
        hafter]
      obtain ⟨result, hrun, hread⟩ := ih ⟨text, s.pos + piece.length + 1, after.1.length, s.maxlen,
        mask, after.2.1, after.2.2, placed 0 after.1⟩ after.1
        (by unfold HexState.pieces; rw [hdrop]; exact hrest) rfl hplace' rfl
      refine ⟨result, by rw [runRounds, hround]; exact hrun, hread.value, hread.type, hread.writes,
        fun hshared orig h hbegins ↦ ?_⟩
      obtain ⟨hnow, hnext⟩ := hinto hshared orig h hbegins
      exact hread.text hshared orig hnow (hnext hzero)

end Rounds

theorem length_hexPieces_le (text : List UInt8) : (hexPieces text).length ≤ text.length + 1 := by
  induction text with
  | nil => exact le_rfl
  | cons c rest ih =>
    rw [hexPieces, List.length_cons]
    split_ifs
    · exact Nat.succ_le_succ ih
    · cases hpieces : hexPieces rest with
      | nil => exact Nat.succ_le_succ (Nat.zero_le _)
      | cons head pieces =>
        rw [hpieces] at ih
        exact ih.trans (Nat.le_succ _)

theorem parseHexRun_eq (shared : Bool) (maxlen : Option ℕ) (macType : Bool) (text : List UInt8) :
    ∃ result, parseHexRun shared maxlen macType text (text.length + 2) = some result ∧
      HasRead shared ⟨text, 0, 0, maxlen, 0, macType, 0, []⟩ []
      (readPieces maxlen (hexPieces (cString text)) [] macType 0)
        result := by
  obtain ⟨result, hrun, hread⟩ := runRounds_readPieces shared (hexPieces (cString text))
    ⟨text, 0, 0, maxlen, 0, macType, 0, []⟩ [] rfl rfl le_rfl rfl
  have hshort : (cString text).length ≤ text.length := (List.takeWhile_prefix _).length_le
  have hpieces := length_hexPieces_le (cString text)
  exact ⟨result, runRounds_of_le (by omega) hrun, hread⟩

/-- Octets, where wildcards leave what was in the buffer. -/
def filled (text : List UInt8) (done : List (Option UInt8)) : List UInt8 :=
  done.mapIdx fun place octet ↦ octet.getD (staleByte text place)

/-- With one buffer the octets are left in front, although the text is overwritten while it is read,
and a wildcard leaves what was there. -/
theorem ReadInto.take {orig text : List UInt8} {done : List (Option UInt8)} {pos : ℕ}
    (h : ReadInto orig done pos text) : text.take done.length = filled orig done := by
  have hlength := h.length
  have hle := h.le_length
  refine List.ext_getElem (by simp [filled]; omega) fun k hk _ ↦ ?_
  rw [List.length_take] at hk
  have hbehind := h.behind k (by have := h.le_pos; omega)
  rw [List.getD_eq_getElem _ _ (by omega), List.getD_eq_getElem _ _ (by omega)] at hbehind
  rw [List.getElem_take, hbehind]
  simp [filled]

theorem parseHex_eq (maxlen : ℕ) (macType : Bool) (text : List UInt8) :
    parseHex maxlen macType text =
      if (readPieces (some maxlen) (hexPieces (cString text)) [] macType 0).ok then
        some (filled text (readPieces (some maxlen) (hexPieces (cString text)) [] macType 0).octets,
          (readPieces (some maxlen) (hexPieces (cString text)) [] macType 0).type)
      else none := by
  obtain ⟨result, hrun, hread⟩ := parseHexRun_eq true (some maxlen) macType text
  obtain ⟨pos, hinto⟩ := hread.text rfl text (.start text) (.inl rfl)
  unfold parseHex
  rw [hrun, Option.bind_some, hread.value, hread.type]
  split_ifs
  · rw [Option.map_some, hinto.take]
  · rfl

/-! ### The bound -/

/-- The pieces behind the type, if one may come and does. -/
def withoutType (macType : Bool) : List (List UInt8 × Option UInt8) → List (List UInt8)
  | [] => []
  | (piece, last) :: rest =>
    if piece = [] then withoutType macType rest
    else if macType ∧ last = some 45 then rest.map Prod.fst
    else piece :: rest.map Prod.fst

/-- With some octets read, a piece that starts below the bound ends there. -/
def RowsFit (maxlen : ℕ) : ℕ → List (List UInt8) → Prop
  | _, [] => True
  | count, piece :: rest =>
    maxlen ≤ count ∨
      (count + (1 + piece.length) / 2 ≤ maxlen ∧
        RowsFit maxlen (count + (1 + piece.length) / 2) rest)

theorem pieceOctets_ne_nil {piece : List UInt8} (h : piece ≠ []) : pieceOctets piece ≠ [] := by
  have hlength := length_pieceOctets piece
  have hpos := List.length_pos_iff.mpr h
  exact List.length_pos_iff.mp (by omega)

theorem length_readPieces_le {maxlen : ℕ} (pieces : List (List UInt8 × Option UInt8)) :
    ∀ (done : List (Option UInt8)) (macType : Bool) (type : ℕ), ¬(done = [] ∧ macType = true) →
      done.length ≤ maxlen → RowsFit maxlen done.length (pieces.map Prod.fst) →
      (readPieces (some maxlen) pieces done macType type).octets.length ≤ maxlen := by
  induction pieces with
  | nil => exact fun _ _ _ _ hdone _ ↦ hdone
  | cons head rest ih =>
    obtain ⟨piece, last⟩ := head
    intro done macType type htype hdone hrows
    rw [readPieces]
    split_ifs with hbound hbad hfront
    · exact hdone
    · exact hdone
    · exact absurd ⟨hfront.2.2.1, hfront.2.2.2⟩ htype
    · have hroom : ¬maxlen ≤ done.length := by simpa using hbound
      obtain ⟨hfits, hrest⟩ := Or.resolve_left hrows hroom
      have hlength : (done ++ pieceOctets piece).length = done.length + (1 + piece.length) / 2 := by
        rw [List.length_append, length_pieceOctets]
      refine ih _ _ _ ?_ (hlength.trans_le hfits) (hlength ▸ hrest)
      rintro ⟨hnil, hmac⟩
      exact htype ⟨(List.append_eq_nil_iff.mp hnil).1, hmac⟩

theorem length_readPieces_le_of_type {maxlen : ℕ} (macType : Bool) (type : ℕ)
    (pieces : List (List UInt8 × Option UInt8))
    (hrows : RowsFit maxlen 0 (withoutType macType pieces)) :
    (readPieces (some maxlen) pieces [] macType type).octets.length ≤ maxlen := by
  induction pieces with
  | nil => exact Nat.zero_le _
  | cons head rest ih =>
    obtain ⟨piece, last⟩ := head
    rw [withoutType] at hrows
    rw [readPieces]
    by_cases hempty : piece = []
    · rw [if_pos hempty] at hrows
      have hnothing : [] ++ pieceOctets piece = [] := by
        rw [hempty]
        rfl
      rw [if_neg (fun h ↦ h.1 hempty : ¬(piece ≠ [] ∧ last = some 45 ∧ [] = [] ∧ macType = true)),
        hnothing]
      split_ifs
      · exact Nat.zero_le _
      · exact Nat.zero_le _
      · exact ih hrows
    · rw [if_neg hempty] at hrows
      split_ifs with hbound hbad hfront
      · exact Nat.zero_le _
      · exact Nat.zero_le _
      · rw [if_pos ⟨hfront.2.2.2, hfront.2.1⟩] at hrows
        exact length_readPieces_le rest [] false _ (by simp) (Nat.zero_le _) hrows
      · rw [if_neg fun h ↦ hfront ⟨hempty, h.2, rfl, h.1⟩] at hrows
        have hroom : ¬maxlen ≤ 0 := by simpa using hbound
        obtain ⟨hfits, hrest⟩ := Or.resolve_left hrows hroom
        have hlength : (pieceOctets piece).length = 0 + (1 + piece.length) / 2 := by
          rw [length_pieceOctets, Nat.zero_add]
        refine length_readPieces_le rest _ macType type ?_ (hlength.trans_le hfits)
          (hlength ▸ hrest)
        exact fun h ↦ pieceOctets_ne_nil hempty h.1

/-- For every text and bound, the result is -1 or the number of octets, where nothing is written for
a wildcard, and every other octet is written at its place. If rows of digits fit, no more than the
bound is written. -/
theorem parseHex_places (shared : Bool) (maxlen : ℕ) (macType : Bool) (text : List UInt8) :
    ∃ rounds result, parseHexRun shared (some maxlen) macType text rounds = some result ∧
      result.value = (if (readPieces (some maxlen) (hexPieces (cString text)) [] macType 0).ok then
        some (readPieces (some maxlen) (hexPieces (cString text)) [] macType 0).octets.length
        else none) ∧
      result.writes = placed 0
      (readPieces (some maxlen) (hexPieces (cString text)) [] macType 0).octets ∧
      (RowsFit maxlen 0 (withoutType macType (hexPieces (cString text))) →
        result.writes.length ≤ maxlen ∧ ∀ write ∈ result.writes, write.1 < maxlen) := by
  obtain ⟨result, hrun, hread⟩ := parseHexRun_eq shared (some maxlen) macType text
  have hwrites := hread.writes
  refine ⟨_, result, hrun, hread.value, hwrites, fun hrows ↦ ?_⟩
  have hlength := length_readPieces_le_of_type macType 0 _ hrows
  rw [hwrites]
  constructor
  · refine (List.length_filterMap_le _ _).trans ?_
    rwa [List.length_zipIdx]
  · intro write hmem
    have hplace := lt_of_mem_placed hmem
    omega

/-- A wildcard counts, and nothing is written for it. -/
theorem not_written_wildcard :
    ∃ result, parseHexRun false (some 6) false [42] 2 = some result ∧ result.value = some 1 ∧
      result.writes = [] :=
  ⟨_, rfl, rfl, rfl⟩

/-- A row of seven octets is written over a bound of six. -/
example : (parseHexRun false (some 6) false (List.replicate 14 48) 2).map
    (fun result ↦ result.writes.length) = some 7 := by
  decide

end CrossBreeder.Dnsmasq
