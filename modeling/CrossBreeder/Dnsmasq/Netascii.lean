import CrossBreeder.Dnsmasq.TftpRuns
import Mathlib.Data.List.Induction

/-!
# Netascii mode of the TFTP server

In netascii mode `get_block` makes two characters of each newline, in the packet itself, and counts
those that it inserts, which gives the place in the file where the next block begins. If a pair does
not fit into a block, `carrylf` says that the next block begins with its second character. So in
runs that repeat a block at the beginning of which there is a newline of the file only if its flags
are the same before and behind the block, what is sent is the text of the file
(`netasciiDelivers_of_steady`), and one repetition of another block is enough to get a different
packet (`not_netasciiDelivers_newline`).
-/

namespace CrossBreeder.Dnsmasq

open Foundation

/-! ### Text in blocks -/

def netasciiText (content : List UInt8) : List UInt8 := content.flatMap fun c ↦ if c = 10 then
    [13, 10] else [c]

/-- What a block has room for, how many characters were inserted into it, and whether the pair at
its end is cut. -/
def fillBlock : ℕ → Bool → List UInt8 → List UInt8 × ℕ × Bool
  | 0, _, _ => ([], 0, false)
  | _ + 1, _, [] => ([], 0, false)
  | room + 1, carry, c :: raw =>
    if c = 10 ∧ carry = false then
      match room with
      | 0 => ([13], 1, true)
      | room + 1 =>
        let rest := fillBlock room false raw
        (13 :: 10 :: rest.1, rest.2.1 + 1, rest.2.2)
    else
      let rest := fillBlock room false raw
      (c :: rest.1, rest.2)

@[simp] theorem netasciiText_nil : netasciiText [] = [] := rfl

theorem netasciiText_newline (raw : List UInt8) :
    netasciiText (10 :: raw) = 13 :: 10 :: netasciiText raw := rfl

theorem netasciiText_cons {c : UInt8} (hc : c ≠ 10) (raw : List UInt8) :
    netasciiText (c :: raw) = c :: netasciiText raw := by
  simp [netasciiText, hc]

@[simp] theorem netasciiText_append (xs ys : List UInt8) :
    netasciiText (xs ++ ys) = netasciiText xs ++ netasciiText ys := List.flatMap_append

section FillBlock

variable {room : ℕ} {carry : Bool} {raw : List UInt8}

theorem fillBlock_newline_one (raw : List UInt8) : fillBlock 1 false (10 :: raw) =
    ([13], 1, true) := rfl

theorem fillBlock_newline (room : ℕ) (raw : List UInt8) : fillBlock (room + 2) false (10 :: raw) =
    (13 :: 10 :: (fillBlock room false raw).1, (fillBlock room false raw).2.1 + 1,
      (fillBlock room false raw).2.2) := rfl

theorem fillBlock_cons {c : UInt8} (hc : ¬(c = 10 ∧ carry = false)) (room : ℕ) (raw : List UInt8) :
    fillBlock (room + 1) carry (c :: raw) =
      (c :: (fillBlock room false raw).1, (fillBlock room false raw).2) := by
  rw [fillBlock.eq_def]
  exact if_neg hc

theorem fillBlock_carry (hhead : raw.head? ≠ some 10) (room : ℕ) (carry other : Bool) :
    fillBlock room carry raw = fillBlock room other raw := by
  cases room with
  | zero => rfl
  | succ room =>
    cases raw with
    | nil => rfl
    | cons c raw =>
      have hc : c ≠ 10 := fun heq ↦ hhead (by rw [heq]; rfl)
      rw [fillBlock_cons (by simp [hc]), fillBlock_cons (by simp [hc])]

/-- Induction along a block. Only a newline is carried, and what follows the first byte is filled
without a carry. -/
@[elab_as_elim] theorem fillBlock_induction {motive : ℕ → Bool → List UInt8 → Prop}
    (nil : ∀ room, motive room false []) (zero : ∀ carry c raw, (carry = true → c = 10) →
      motive 0 carry (c :: raw))
    (half : ∀ raw, motive 1 false (10 :: raw))
    (pair : ∀ room raw, motive room false raw → motive (room + 2) false (10 :: raw))
    (carried : ∀ room raw, motive room false raw → motive (room + 1) true (10 :: raw))
    (plain : ∀ room c raw, c ≠ 10 → motive room false raw → motive (room + 1) false (c :: raw))
    (room : ℕ) (hcarry : carry = true → raw.head? = some 10) : motive room carry raw := by
  induction raw generalizing room carry with
  | nil =>
    cases carry with
    | false => exact nil room
    | true => cases hcarry rfl
  | cons c raw ih =>
    have hnewline : carry = true → c = 10 := fun htrue ↦ Option.some.inj (hcarry htrue)
    have hrest : ∀ room, motive room false raw := fun room ↦ ih room (by simp)
    cases room with
    | zero => exact zero carry c raw hnewline
    | succ room =>
      cases carry with
      | true =>
        obtain rfl := hnewline rfl
        exact carried room raw (hrest room)
      | false =>
        by_cases hc : c = 10
        · subst hc
          cases room with
          | zero => exact half raw
          | succ room => exact pair room raw (hrest room)
        · exact plain room c raw hc (hrest room)

theorem fillBlock_text (hcarry : carry = true → raw.head? = some 10) :
    (fillBlock room carry raw).1 = ((netasciiText raw).drop carry.toNat).take room := by
  refine fillBlock_induction (fun room ↦ ?_) (fun carry c raw _ ↦ ?_) (fun raw ↦
    rfl) (fun room raw ih ↦ ?_) (fun room raw ih ↦ ?_) (fun room c raw hc ih ↦ ?_) room hcarry
  · cases room <;> simp [fillBlock, netasciiText]
  · simp [fillBlock]
  · rw [fillBlock_newline, netasciiText_newline, ih]
    rfl
  · rw [fillBlock_cons (by simp), netasciiText_newline, ih]
    rfl
  · rw [fillBlock_cons (by simp [hc]), netasciiText_cons hc, ih]
    rfl

theorem fillBlock_full (hcarry : carry = true → raw.head? = some 10)
    (hroom : 0 < room ∨ carry = false) (hfull : room + carry.toNat ≤ (netasciiText raw).length) :
    ∃ k ≤ raw.length, k + (fillBlock room carry raw).2.1 = room ∧
      (netasciiText (raw.take k)).length + (fillBlock room carry raw).2.2.toNat =
      room + carry.toNat ∧ ((fillBlock room carry raw).2.2 = true → raw[k]? = some 10) := by
  revert hroom hfull
  refine fillBlock_induction (fun room _ hfull ↦ ?_) (fun carry c raw _ hroom _ ↦ ?_)
    (fun raw _ _ ↦ ?_)
    (fun room raw ih _ hfull ↦ ?_) (fun room raw ih _ hfull ↦ ?_)
      (fun room c raw hc ih _ hfull ↦ ?_) room hcarry
  · obtain rfl : room = 0 := by simpa [netasciiText] using hfull
    exact ⟨0, Nat.le_refl 0,
      by simp [fillBlock], by simp [fillBlock, netasciiText], by simp [fillBlock]⟩
  · obtain rfl : carry = false := hroom.resolve_left (Nat.lt_irrefl 0)
    exact ⟨0, Nat.zero_le _,
      by simp [fillBlock], by simp [fillBlock, netasciiText], by simp [fillBlock]⟩
  · exact ⟨0, Nat.zero_le _, by simp [fillBlock_newline_one], by simp [fillBlock_newline_one,
      netasciiText], by simp⟩
  · rw [netasciiText_newline, List.length_cons, List.length_cons] at hfull
    obtain ⟨k, hk, hsum, hlength, hnewline⟩ := ih (.inr rfl) (by simpa using hfull)
    refine ⟨k + 1, Nat.succ_le_succ hk, ?_, ?_, hnewline⟩
    · rw [fillBlock_newline]
      dsimp only
      omega
    · rw [fillBlock_newline, List.take_succ_cons, netasciiText_newline]
      simp only [List.length_cons, Bool.toNat_false] at hlength ⊢
      omega
  · rw [netasciiText_newline, List.length_cons, List.length_cons] at hfull
    obtain ⟨k, hk, hsum, hlength, hnewline⟩ := ih (.inr rfl) (by simpa using hfull)
    have hblock := @fillBlock_cons true 10 (by simp) room raw
    refine ⟨k + 1, Nat.succ_le_succ hk, ?_, ?_, hblock ▸ hnewline⟩
    · rw [hblock]
      dsimp only
      omega
    · rw [hblock, List.take_succ_cons, netasciiText_newline]
      simp only [List.length_cons, Bool.toNat_false, Bool.toNat_true] at hlength ⊢
      omega
  · rw [netasciiText_cons hc, List.length_cons] at hfull
    obtain ⟨k, hk, hsum, hlength, hnewline⟩ := ih (.inr rfl) (by simpa using hfull)
    have hblock := @fillBlock_cons false c (by simp [hc]) room raw
    refine ⟨k + 1, Nat.succ_le_succ hk, ?_, ?_, hblock ▸ hnewline⟩
    · rw [hblock]
      dsimp only
      omega
    · rw [hblock, List.take_succ_cons, netasciiText_cons hc]
      simp only [List.length_cons, Bool.toNat_false] at hlength ⊢
      omega

theorem fillBlock_short (hcarry : carry = true → raw.head? = some 10)
    (hshort : (netasciiText raw).length < room + carry.toNat) :
    raw.length + (fillBlock room carry raw).2.1 < room ∧
      (fillBlock room carry raw).2.2 = false := by
  revert hshort
  refine fillBlock_induction (fun room hshort ↦ ?_) (fun carry c raw hnewline hshort ↦
    ?_) (fun raw hshort ↦ ?_)
    (fun room raw ih hshort ↦ ?_) (fun room raw ih hshort ↦ ?_) (fun room c raw hc ih hshort ↦ ?_)
      room hcarry
  · cases room with
    | zero => cases hshort
    | succ room => exact ⟨Nat.succ_pos _, rfl⟩
  · exfalso
    cases carry with
    | false => simp at hshort
    | true =>
      obtain rfl := hnewline rfl
      simp [netasciiText_newline] at hshort
  · simp [netasciiText_newline] at hshort
  · rw [netasciiText_newline, List.length_cons, List.length_cons] at hshort
    obtain ⟨hlength, hwhole⟩ := ih (by simpa using hshort)
    rw [fillBlock_newline, List.length_cons]
    refine ⟨?_, hwhole⟩
    dsimp only
    omega
  · rw [netasciiText_newline, List.length_cons, List.length_cons] at hshort
    obtain ⟨hlength, hwhole⟩ := ih (by simpa using hshort)
    rw [fillBlock_cons (by simp), List.length_cons]
    refine ⟨?_, hwhole⟩
    dsimp only
    omega
  · rw [netasciiText_cons hc, List.length_cons] at hshort
    obtain ⟨hlength, hwhole⟩ := ih (by simpa using hshort)
    rw [fillBlock_cons (by simp [hc]), List.length_cons]
    refine ⟨?_, hwhole⟩
    dsimp only
    omega

end FillBlock

/-! ### The loop of the source -/

section Loop

variable {blocksize : ℕ} {carrylf : Bool}

theorem netasciiLoop_of_length_le {i : ℕ} {data : List UInt8} (hend : data.length ≤ i) (fuel : ℕ)
    (expansion : UInt32) (newcarrylf : Bool) :
    netasciiLoop blocksize carrylf fuel i data expansion newcarrylf =
      (data, expansion, newcarrylf) := by
  cases fuel with
  | zero => rfl
  | succ fuel => rw [netasciiLoop, if_pos hend]

theorem ofNat_succ_add (expansion : UInt32) (n : ℕ) :
    expansion + 1 + UInt32.ofNat n = expansion + UInt32.ofNat (n + 1) := by
  rw [UInt32.ofNat_add, UInt32.add_assoc, UInt32.add_comm 1]
  rfl

/-- The loop in a block of which `out` is ready: behind it is as much of the rest of the file as
there is room for. -/
theorem netasciiLoop_eq (raw : List UInt8) : ∀ (fuel : ℕ) (out : List UInt8) (expansion : UInt32)
    (newcarrylf : Bool), out.length ≤ blocksize → blocksize - out.length + 1 ≤ fuel →
    netasciiLoop blocksize carrylf fuel out.length
      (out ++ raw.take (blocksize - out.length)) expansion newcarrylf =
      (out ++ (fillBlock (blocksize - out.length) (out.isEmpty && carrylf) raw).1,
        expansion + UInt32.ofNat
        (fillBlock (blocksize - out.length) (out.isEmpty && carrylf) raw).2.1,
        newcarrylf || (fillBlock (blocksize - out.length) (out.isEmpty && carrylf) raw).2.2) := by
  induction raw with
  | nil =>
    intro fuel out expansion newcarrylf _ _
    rw [netasciiLoop_of_length_le (by simp)]
    cases blocksize - out.length <;> simp [fillBlock]
  | cons c raw ih =>
    intro fuel out expansion newcarrylf hout hfuel
    obtain ⟨fuel, rfl⟩ : ∃ more, fuel = more + 1 := ⟨fuel - 1, by omega⟩
    -- the rest of the loop, which has something in front of it
    have hlater : ∀ (ready : List UInt8) (expansion : UInt32) (newcarrylf : Bool) (room : ℕ),
      ready ≠ [] →
        ready.length ≤ blocksize → blocksize - ready.length = room → room + 1 ≤ fuel →
        netasciiLoop blocksize carrylf fuel ready.length (ready ++ raw.take room)
          expansion newcarrylf =
          (ready ++ (fillBlock room false raw).1,
            expansion + UInt32.ofNat (fillBlock room false raw).2.1,
            newcarrylf || (fillBlock room false raw).2.2) := by
      rintro ready expansion newcarrylf room hne hready rfl hroom
      have hfilled : ready.isEmpty = false := by simpa using hne
      have hrest := ih fuel ready expansion newcarrylf hready hroom
      rwa [hfilled, Bool.false_and] at hrest
    cases hroom : blocksize - out.length with
    | zero =>
      rw [netasciiLoop_of_length_le (by simp)]
      simp [fillBlock]
    | succ room =>
      have hdata : out ++ (c :: raw).take (room + 1) = out ++ c :: raw.take room := by
        rw [List.take_succ_cons]
      have hchar : (out ++ c :: raw.take room).getD out.length 0 = c := by
        simp
      have hlength : (out ++ c :: raw.take room).length = out.length + 1 + min room raw.length := by
        simp
        omega
      have hcondition : (c = 10 ∧ (out.length ≠ 0 ∨ carrylf = false)) ↔
        c = 10 ∧ (out.isEmpty && carrylf) = false := by
        cases out <;> simp
      rw [hdata, netasciiLoop, if_neg (by omega), hchar]
      by_cases hc : c = 10 ∧ (out.isEmpty && carrylf) = false
      · rw [if_pos (hcondition.mpr hc), List.take_left, List.drop_left, hlength]
        obtain ⟨rfl, hcarry⟩ := hc
        rw [hcarry]
        have hpair : ∀ rest : List UInt8, out ++ 13 :: 10 :: rest = (out ++ [13, 10]) ++ rest :=
          fun rest ↦ by
          rw [List.append_assoc]
          rfl
        have hplace : (out ++ [(13 : UInt8), 10]).length = out.length + 2 := by
          simp
        split_ifs with hspace
        · -- all of the rest of the file is in the block
          obtain ⟨room, rfl⟩ : ∃ more, room = more + 1 := ⟨room - 1, by omega⟩
          have hwhole : raw.take (room + 1) = raw.take room := by
            rw [List.take_of_length_le (by omega), List.take_of_length_le (by omega)]
          rw [hwhole, hpair, ← hplace,
            hlater _ _ _ room (by simp) (by omega) (by omega) (by omega), fillBlock_newline,
            ofNat_succ_add, List.append_assoc]
          rfl
        · cases room with
          | zero =>
            rw [netasciiLoop_of_length_le (by simp), fillBlock_newline_one]
            simp
          | succ room =>
            have hlast : ((10 : UInt8) :: raw.take (room + 1)).dropLast = 10 :: raw.take room := by
              rw [List.dropLast_cons_of_ne_nil
                (List.ne_nil_of_length_pos (by simp; omega)), List.dropLast_eq_take,
                List.length_take, List.take_take,
                  Nat.min_eq_left (by omega : room + 1 ≤ raw.length)]
              simp
            have hbefore : decide (out.length = out.length + 1 + min (room + 1) raw.length - 1) =
              false :=
              decide_eq_false (by omega)
            rw [hlast, hpair, ← hplace,
              hlater _ _ _ room (by simp) (by omega) (by omega) (by omega), fillBlock_newline,
              ofNat_succ_add, hbefore, Bool.or_false, List.append_assoc]
            rfl
      · have hone : ∀ rest : List UInt8, out ++ c :: rest = (out ++ [c]) ++ rest := fun rest ↦ by
          rw [List.append_assoc]
          rfl
        have hplace : (out ++ [c]).length = out.length + 1 := by
          simp
        rw [if_neg (mt hcondition.mp hc), fillBlock_cons hc, hone, ← hplace,
          hlater _ _ _ room (by simp) (by omega) (by omega) (by omega), List.append_assoc]
        rfl

end Loop

theorem getBlock_netascii {transfer : Transfer} (hmode : transfer.netascii = true)
    (hblock : transfer.block ≠ 0)
    (hinside : transfer.offset ≤ transfer.file.content.length) (readable : Bool) :
    getBlock transfer readable =
      if readable = false then (transfer, none)
      else
        let filled :=
        fillBlock transfer.blocksize.toNat transfer.carrylf
          (transfer.file.content.drop transfer.offset)
        ({ transfer with expansion := UInt32.ofNat filled.2.1, carrylf := filled.2.2 },
          some (shortBytes opData ++ shortBytes transfer.block.toUInt16 ++ filled.1)) := by
  have hloop := @netasciiLoop_eq transfer.blocksize.toNat transfer.carrylf
    (transfer.file.content.drop transfer.offset)
    (transfer.blocksize.toNat + 1) [] 0 false (Nat.zero_le _) (Nat.le_refl _)
  simp only [List.length_nil, List.nil_append, Nat.sub_zero, List.isEmpty_nil, Bool.true_and,
    Bool.false_or,
    UInt32.zero_add] at hloop
  unfold getBlock
  rw [if_neg hblock, if_neg (Nat.not_lt.mpr hinside)]
  by_cases hread : readable = false
  · rw [if_pos hread, if_pos hread]
  · rw [if_neg hread, if_neg hread]
    rw [if_pos hmode, hloop]

/-! ### Where blocks begin -/

/-- The place in the file of a position in its text, and whether this is the second character of a
pair. -/
structure Located (content : List UInt8) (position offset : ℕ) (carry : Bool) : Prop where
  position : position = (netasciiText (content.take offset)).length + carry.toNat
  inside : offset ≤ content.length
  newline : carry = true → content[offset]? = some 10

def Cut (content : List UInt8) (position : ℕ) :
    Prop := ∃ offset, Located content position offset true

section Located

variable {content : List UInt8} {position offset : ℕ} {carry : Bool}

theorem netasciiText_take (content : List UInt8) (n k : ℕ) :
    netasciiText (content.take (n + k)) = netasciiText (content.take n) ++ netasciiText
      ((content.drop n).take k) := by
  rw [List.take_add, netasciiText_append]

theorem netasciiText_split (content : List UInt8) (n : ℕ) :
    netasciiText content = netasciiText (content.take n) ++ netasciiText (content.drop n) := by
  rw [← netasciiText_append, List.take_append_drop]

theorem head?_drop_of_located (h : Located content position offset carry) :
    carry = true → (content.drop offset).head? = some 10 := fun hcarry ↦ by
  rw [List.head?_drop]
  exact h.newline hcarry

theorem Located.lt (h : Located content position offset carry) {other later : ℕ} {flag : Bool}
    (hlater : Located content later other flag) (hlt : offset < other) : position < later := by
  have hsome : offset < content.length := Nat.lt_of_lt_of_le hlt hlater.inside
  obtain ⟨k, rfl⟩ : ∃ k, other = offset + (k + 1) := ⟨other - offset - 1, by omega⟩
  have hdrop : (content.drop offset).take (k + 1) =
    content[offset] :: (content.drop (offset + 1)).take k := by
    rw [List.drop_eq_getElem_cons hsome, List.take_succ_cons]
  rw [h.position, hlater.position, netasciiText_take, hdrop, List.length_append]
  by_cases hnewline : content[offset] = 10
  · rw [hnewline, netasciiText_newline, List.length_cons, List.length_cons]
    have hbit := Bool.toNat_lt carry
    omega
  · have hfalse : carry = false := by
      cases carry with
      | false => rfl
      | true =>
        have hfound := h.newline rfl
        rw [List.getElem?_eq_getElem hsome] at hfound
        exact absurd (Option.some.inj hfound) hnewline
    rw [netasciiText_cons hnewline, List.length_cons, hfalse, Bool.toNat_false]
    omega

theorem Located.unique (h : Located content position offset carry) {other : ℕ} {flag : Bool}
    (hother : Located content position other flag) : offset = other ∧ carry = flag := by
  obtain hlt | rfl | hgt := Nat.lt_trichotomy offset other
  · exact absurd (h.lt hother hlt) (Nat.lt_irrefl _)
  · refine ⟨rfl, ?_⟩
    have hsame : carry.toNat = flag.toNat :=
      Nat.add_left_cancel (h.position.symm.trans hother.position)
    revert hsame
    cases carry <;> cases flag <;> decide
  · exact absurd (hother.lt h hgt) (Nat.lt_irrefl _)

theorem Located.cut_iff (h : Located content position offset carry) :
    Cut content position ↔ carry = true := by
  constructor
  · rintro ⟨other, hother⟩
    exact (h.unique hother).2
  · rintro rfl
    exact ⟨offset, h⟩

theorem Located.le_length (h : Located content position offset carry) : position ≤
    (netasciiText content).length := by
  rw [h.position, netasciiText_split content offset, List.length_append]
  cases carry with
  | false => simp
  | true =>
    have hhead := head?_drop_of_located h rfl
    obtain ⟨rest, hrest⟩ := List.head?_eq_some_iff.mp hhead
    rw [hrest, netasciiText_newline]
    simp

variable {blocksize : ℕ}

theorem Located.fillBlock_text (h : Located content position offset carry) :
    (fillBlock blocksize carry (content.drop offset)).1 =
      ((netasciiText content).drop position).take blocksize := by
  rw [Dnsmasq.fillBlock_text (head?_drop_of_located h), h.position,
    netasciiText_split content offset, ← List.drop_drop, List.drop_left]

/-- The next block begins where the characters of the file that are in this one end. -/
theorem Located.next (h : Located content position offset carry) (hpos : 0 < blocksize)
    (hfull : position + blocksize ≤ (netasciiText content).length) :
    (fillBlock blocksize carry (content.drop offset)).2.1 ≤ blocksize ∧
      Located content (position + blocksize)
      (offset + (blocksize - (fillBlock blocksize carry (content.drop offset)).2.1))
        (fillBlock blocksize carry (content.drop offset)).2.2 := by
  have hrest : blocksize + carry.toNat ≤ (netasciiText (content.drop offset)).length := by
    have hsplit := congrArg List.length (netasciiText_split content offset)
    rw [List.length_append] at hsplit
    have hposition := h.position
    omega
  obtain ⟨k, hk, hsum, hlength, hnewline⟩ :=
    fillBlock_full (head?_drop_of_located h) (.inl hpos) hrest
  generalize fillBlock blocksize carry (content.drop offset) = filled at *
  rw [List.length_drop] at hk
  have hplace : blocksize - filled.2.1 = k := by omega
  have hinside := h.inside
  refine ⟨by omega, ?_, by omega, fun hcut ↦ ?_⟩
  · rw [hplace, netasciiText_take, List.length_append, h.position]
    omega
  · rw [hplace, ← List.getElem?_drop]
    exact hnewline hcut

theorem Located.last (h : Located content position offset carry)
    (hshort : (netasciiText content).length < position + blocksize) :
    (fillBlock blocksize carry (content.drop offset)).2.1 ≤ blocksize ∧
      content.length < offset +
      (blocksize - (fillBlock blocksize carry (content.drop offset)).2.1) ∧
      (fillBlock blocksize carry (content.drop offset)).2.2 = false := by
  have hrest : (netasciiText (content.drop offset)).length < blocksize + carry.toNat := by
    have hsplit := congrArg List.length (netasciiText_split content offset)
    rw [List.length_append] at hsplit
    have hposition := h.position
    omega
  obtain ⟨hlength, hwhole⟩ := fillBlock_short (head?_drop_of_located h) hrest
  rw [List.length_drop] at hlength
  have hinside := h.inside
  exact ⟨by omega, by omega, hwhole⟩

theorem Located.cut_behind_iff (h : Located content position offset carry) (hpos : 0 < blocksize) :
    Cut content (position + blocksize) ↔
      (fillBlock blocksize carry (content.drop offset)).2.2 = true := by
  rcases Nat.lt_or_ge (netasciiText content).length (position + blocksize) with hshort | hfull
  · rw [(h.last hshort).2.2]
    refine ⟨?_, by simp⟩
    rintro ⟨other, hother⟩
    have hle := hother.le_length
    omega
  · exact (h.next hpos hfull).2.cut_iff

end Located

/-! ### Transfers in netascii mode -/

def netasciiLast (start : Transfer) : ℕ :=
  (netasciiText start.file.content).length / start.blocksize.toNat + 1

/-- A block that can be sent again: if it begins with a newline of the file, or with the second
character of one, then a pair is cut before it exactly if one is cut behind it. -/
def SteadyBlock (transfer : Transfer) : Prop :=
  (∃ offset carry, Located transfer.file.content
    ((transfer.block.toNat - 1) * transfer.blocksize.toNat) offset carry ∧
    transfer.file.content[offset]? = some 10) →
  (Cut transfer.file.content ((transfer.block.toNat - 1) * transfer.blocksize.toNat) ↔
    Cut transfer.file.content
      ((transfer.block.toNat - 1) * transfer.blocksize.toNat + transfer.blocksize.toNat))

/-- The packet of a transfer is sent again: it was not acknowledged, it is due, and neither the file
nor the client has failed. -/
def Repeats (input : TftpInput) (transfer : Transfer) : Prop :=
  (transfer.taken input).2 = [] ∧ (transfer.taken input).1.timeout ≤ input.now ∧
    input.readable transfer.number = true ∧ (transfer.taken input).1.backoff < 5

/-- The condition on the steps of a run: what is sent again can be sent again. -/
def SendsSteadily (input : TftpInput) (transfer : Transfer) : Prop :=
  transfer.netascii = true → transfer.block ≠ 0 → Repeats input transfer → SteadyBlock transfer

/-- What was sent for a transfer: each block is the same each time, the blocks up to the last one,
the short one, are the text of the file, and the transfer is done only when all of them were sent.
-/
structure NetasciiDelivers (s : TftpState) (start : Transfer) : Prop where
  identical : ∀ n packet other, .sent start.number n packet ∈ s.log →
    .sent start.number n other ∈ s.log → n ≠ 0 → packet = other
  translated : ∀ packets : ℕ → List UInt8,
    (∀ k < netasciiLast start, ∃ n : UInt32, n.toNat = k + 1 ∧
      .sent start.number n (packets k) ∈ s.log) →
    (List.range (netasciiLast start)).flatMap (fun k ↦ (packets k).drop 4) =
      netasciiText start.file.content
  short : ∀ n packet, .sent start.number n packet ∈ s.log → n ≠ 0 →
    n.toNat ≤ netasciiLast start ∧ (packet.length < start.blocksize.toNat + 4 ↔
      n.toNat = netasciiLast start)
  complete : ∀ done ∈ s.doneTrans, done.number = start.number → ∀ k < netasciiLast start,
    ∃ (n : UInt32) (packet : List UInt8), n.toNat = k + 1 ∧ .sent start.number n packet ∈ s.log

def netasciiPacket (start : Transfer) (n : ℕ) : List UInt8 :=
  shortBytes opData ++ shortBytes (UInt16.ofNat n) ++
    ((netasciiText start.file.content).drop ((n - 1) * start.blocksize.toNat)).take
      start.blocksize.toNat

def SentUpTo (log : List TftpEvent) (start : Transfer) (last : ℕ) : Prop :=
  ∀ k < last, ∃ (n : UInt32) (packet : List UInt8), n.toNat = k + 1 ∧
    .sent start.number n packet ∈ log

structure SameTransfer (start transfer : Transfer) : Prop where
  number : transfer.number = start.number
  blocksize : transfer.blocksize = start.blocksize
  file : transfer.file = start.file
  netascii : transfer.netascii = start.netascii

/-- Where a transfer is that has sent a packet: at the acknowledgement of options, at a block, or
behind the last block with a counter that has come back to 0. -/
inductive Sending (log : List TftpEvent) (start transfer : Transfer) : Prop
  | options (hblock : transfer.block = 0) (hoffset : transfer.offset = 0)
    (hcarry : transfer.carrylf = false)
  | block (carry : Bool) (hblock : transfer.block ≠ 0)
      (hplace : Located start.file.content ((transfer.block.toNat - 1) * start.blocksize.toNat)
        transfer.offset carry)
      (hexpansion : transfer.expansion =
        UInt32.ofNat
          (fillBlock start.blocksize.toNat carry (start.file.content.drop transfer.offset)).2.1)
      (hcarry : transfer.carrylf =
        (fillBlock start.blocksize.toNat carry (start.file.content.drop transfer.offset)).2.2)
      (hsent : SentUpTo log start transfer.block.toNat)
  | passed (hblock : transfer.block = 0) (hoffset : start.file.content.length < transfer.offset)
      (hsent : SentUpTo log start (netasciiLast start))

/-- Where a transfer is before it sends a packet. The flag is the one of the next block, if it is
sent and begins with a newline of the file. -/
inductive AboutTo (sends : Prop) (log : List TftpEvent) (start transfer : Transfer) : Prop
  | options (hblock : transfer.block = 0) (hoffset : transfer.offset = 0)
    (hcarry : transfer.carrylf = false)
  | block (carry : Bool) (hblock : transfer.block ≠ 0)
      (hplace : Located start.file.content ((transfer.block.toNat - 1) * start.blocksize.toNat)
        transfer.offset carry)
      (hcarry : sends → start.file.content[transfer.offset]? = some 10 → transfer.carrylf = carry)
      (hsent : SentUpTo log start (transfer.block.toNat - 1))
  | passed (hoffset : start.file.content.length < transfer.offset) (hsent :
    SentUpTo log start (netasciiLast start))

structure NetasciiCountable (start : Transfer) : Prop where
  netascii : start.netascii = true
  blocksize : 0 < start.blocksize.toNat
  length : (netasciiText start.file.content).length < (2 ^ 32 - 1) * start.blocksize.toNat

section Blocks

variable {start : Transfer}

theorem NetasciiCountable.last_lt (h : NetasciiCountable start) : netasciiLast start < 2 ^ 32 := by
  have hdiv : (netasciiText start.file.content).length / start.blocksize.toNat < 2 ^ 32 - 1 :=
    Nat.div_lt_of_lt_mul (by rw [Nat.mul_comm]; exact h.length)
  unfold netasciiLast
  omega

theorem start_le_iff (hblocksize : 0 < start.blocksize.toNat) (n : ℕ) :
    n * start.blocksize.toNat ≤ (netasciiText start.file.content).length ↔
      n < netasciiLast start := by
  unfold netasciiLast
  rw [Nat.lt_succ_iff, Nat.le_div_iff_mul_le hblocksize]

theorem length_netasciiPacket (n : ℕ) : (netasciiPacket start n).length =
    4 + min start.blocksize.toNat
      ((netasciiText start.file.content).length - (n - 1) * start.blocksize.toNat) := by
  simp [netasciiPacket, shortBytes]
  omega

theorem short_netasciiPacket_iff (hblocksize : 0 < start.blocksize.toNat) {n : ℕ} (hpos : 0 < n)
    (hn : n ≤ netasciiLast start) :
    (netasciiPacket start n).length < start.blocksize.toNat + 4 ↔ n = netasciiLast start := by
  rw [length_netasciiPacket]
  have hsplit : n * start.blocksize.toNat =
    (n - 1) * start.blocksize.toNat + start.blocksize.toNat := by
    rw [← Nat.add_one_mul, Nat.sub_add_cancel hpos]
  have hbefore := (start_le_iff hblocksize (n - 1)).mpr (by omega)
  have hbehind := start_le_iff hblocksize n
  by_cases hlast : n = netasciiLast start
  · have hnot : ¬n * start.blocksize.toNat ≤ (netasciiText start.file.content).length := fun hle ↦
      Nat.lt_irrefl n (by rw [hlast] at hle hbehind ⊢; exact hbehind.mp hle)
    omega
  · have hfull := hbehind.mpr (by omega)
    omega

theorem flatMap_slices (text : List UInt8) (width : ℕ) : ∀ count,
    (List.range count).flatMap (fun k ↦ (text.drop (k * width)).take width) = text.take
      (count * width) := by
  intro count
  induction count with
  | zero => simp
  | succ count ih =>
    rw [List.range_succ, List.flatMap_append, ih, Nat.add_one_mul, List.take_add]
    simp

theorem flatMap_netasciiPacket (hblocksize : 0 < start.blocksize.toNat) :
    (List.range (netasciiLast start)).flatMap (fun k ↦ (netasciiPacket start (k + 1)).drop 4) =
      netasciiText start.file.content := by
  have hdata : ∀ k, (netasciiPacket start (k + 1)).drop 4 =
      ((netasciiText start.file.content).drop (k * start.blocksize.toNat)).take
        start.blocksize.toNat := fun k ↦ by
    unfold netasciiPacket
    rw [List.drop_left' (by simp [shortBytes]), Nat.add_sub_cancel]
  have hnot := mt (start_le_iff hblocksize (netasciiLast start)).mp (Nat.lt_irrefl _)
  simp only [hdata]
  rw [flatMap_slices, List.take_of_length_le (by omega)]

end Blocks

section Transfers

variable {log : List TftpEvent} {start transfer : Transfer} {sends : Prop}

theorem SentUpTo.mono {last : ℕ} (h : SentUpTo log start last) (more : List TftpEvent) :
    SentUpTo (more ++ log) start last := by
  intro k hk
  obtain ⟨n, packet, hn, hmem⟩ := h k hk
  exact ⟨n, packet, hn, List.mem_append_right _ hmem⟩

theorem Sending.mono (h : Sending log start transfer) (more : List TftpEvent) :
    Sending (more ++ log) start transfer := by
  cases h with
  | options hblock hoffset hcarry => exact .options hblock hoffset hcarry
  | block carry hblock hplace hexpansion hcarry hsent =>
    exact .block carry hblock hplace hexpansion hcarry (hsent.mono more)
  | passed hblock hoffset hsent => exact .passed hblock hoffset (hsent.mono more)

theorem Sending.of_counters (h : Sending log start transfer) {next : Transfer}
    (hblock : next.block = transfer.block) (hoffset : next.offset = transfer.offset)
    (hcarry : next.carrylf = transfer.carrylf) (hexpansion : next.expansion = transfer.expansion) :
    Sending log start next := by
  cases h with
  | options hzero hstart hfalse =>
    exact .options (hblock.trans hzero) (hoffset.trans hstart) (hcarry.trans hfalse)
  | block carry hne hplace hinserted hflag hsent =>
    exact .block carry (by rwa [hblock]) (by rwa [hblock, hoffset]) (by rwa [hexpansion,
      hoffset]) (by rwa [hcarry, hoffset]) (by rwa [hblock])
  | passed hzero hend hsent => exact .passed (hblock.trans hzero) (by rwa [hoffset]) hsent

theorem AboutTo.of_counters (h : AboutTo sends log start transfer) {next : Transfer}
    (hblock : next.block = transfer.block) (hoffset : next.offset = transfer.offset)
    (hcarry : next.carrylf = transfer.carrylf) : AboutTo sends log start next := by
  cases h with
  | options hzero hstart hfalse =>
    exact .options (hblock.trans hzero) (hoffset.trans hstart) (hcarry.trans hfalse)
  | block carry hne hplace hflag hsent =>
    exact .block carry (by rwa [hblock]) (by rwa [hblock, hoffset]) (by rwa [hcarry,
      hoffset]) (by rwa [hblock])
  | passed hend hsent => exact .passed (by rwa [hoffset]) hsent

theorem SameTransfer.trans (h : SameTransfer start transfer) {next : Transfer}
    (hnext : SameTransfer transfer next) : SameTransfer start next :=
  ⟨hnext.number.trans h.number, hnext.blocksize.trans h.blocksize, hnext.file.trans h.file,
    hnext.netascii.trans h.netascii⟩

theorem block_le_last (hcount : NetasciiCountable start) {n offset : ℕ} {carry : Bool}
    (hpos : 0 < n) (hplace : Located start.file.content ((n - 1) * start.blocksize.toNat) offset
      carry) : n ≤ netasciiLast start := by
  have hlt := (start_le_iff hcount.blocksize (n - 1)).mp hplace.le_length
  omega

theorem toNat_blocksize_sub {n : ℕ} {blocksize : UInt32} (hn : n ≤ blocksize.toNat) :
    (blocksize - UInt32.ofNat n).toNat = blocksize.toNat - n := by
  have hlt : n < 2 ^ 32 := Nat.lt_of_le_of_lt hn blocksize.toNat_lt
  have hvalue : (UInt32.ofNat n).toNat = n := UInt32.toNat_ofNat_of_lt' hlt
  rw [UInt32.toNat_sub_of_le _ _ (UInt32.le_iff_toNat_le.mpr (by rwa [hvalue])), hvalue]

theorem Sending.acknowledge (h : Sending log start transfer) (hsame : SameTransfer start transfer)
    (hcount : NetasciiCountable start) (now : ℤ) (answered : UInt32) :
    AboutTo sends (.acked transfer.number answered :: log) start (transfer.acknowledge now) := by
  cases h with
  | options hblock hoffset hcarry =>
    refine .block false (by simp [Transfer.acknowledge, hblock]) ?_ (fun _ _ ↦ hcarry) ?_
    · exact ⟨by simp [Transfer.acknowledge, hblock, hoffset], by simp [Transfer.acknowledge, hblock,
        hoffset], by simp⟩
    · intro k hk
      simp [Transfer.acknowledge, hblock] at hk
  | block carry hblock hplace hexpansion hcarry hsent =>
    have hpos := (ne_zero_iff_toNat _).mp hblock
    have hle := block_le_last hcount hpos hplace
    have hsplit : transfer.block.toNat * start.blocksize.toNat =
        (transfer.block.toNat - 1) * start.blocksize.toNat + start.blocksize.toNat := by
      rw [← Nat.add_one_mul, Nat.sub_add_cancel hpos]
    have hlater := hsent.mono [.acked transfer.number answered]
    have hadvance :
      (fillBlock start.blocksize.toNat carry (start.file.content.drop transfer.offset)).2.1 ≤
        start.blocksize.toNat → (transfer.acknowledge now).offset = transfer.offset +
          (start.blocksize.toNat - (fillBlock start.blocksize.toNat carry
            (start.file.content.drop transfer.offset)).2.1) :=
      fun hexpanded ↦ by
        simp only [Transfer.acknowledge, ne_eq, hblock, not_false_eq_true, if_true]
        rw [hexpansion, hsame.blocksize, toNat_blocksize_sub hexpanded]
    rcases Nat.lt_or_ge (netasciiText start.file.content).length
      ((transfer.block.toNat - 1) * start.blocksize.toNat + start.blocksize.toNat)
        with hshort | hfull
    · obtain ⟨hexpanded, hover, -⟩ := hplace.last hshort
      have hlast : transfer.block.toNat = netasciiLast start := by
        have hnot := mt (start_le_iff hcount.blocksize transfer.block.toNat).mpr (by omega)
        omega
      refine .passed (by rw [hadvance hexpanded]; exact hover) ?_
      rw [← hlast]
      exact hlater
    · obtain ⟨hexpanded, hnext⟩ := hplace.next hcount.blocksize hfull
      have hbound := hcount.last_lt
      have hbehind := (start_le_iff hcount.blocksize transfer.block.toNat).mp (by omega)
      have hcounter : (transfer.acknowledge now).block.toNat = transfer.block.toNat + 1 := by
        simp only [Transfer.acknowledge]
        rw [UInt32.toNat_add]
        exact Nat.mod_eq_of_lt (by simp; omega)
      refine .block _ ((ne_zero_iff_toNat _).mpr (by omega)) ?_ (fun _ _ ↦ hcarry) ?_
      · rw [hcounter, hadvance hexpanded, Nat.add_sub_cancel, hsplit]
        exact hnext
      · rw [hcounter]
        exact hlater
  | passed hblock hoffset hsent =>
    refine .passed ?_ (hsent.mono [_])
    simp only [Transfer.acknowledge, hblock, ne_eq, not_true_eq_false, if_false]
    exact hoffset

theorem Sending.again (h : Sending log start transfer) (hsame : SameTransfer start transfer)
    (hcount : NetasciiCountable start)
    (hsteady : sends → transfer.block ≠ 0 → SteadyBlock transfer) :
    AboutTo sends log start transfer := by
  cases h with
  | options hblock hoffset hcarry => exact .options hblock hoffset hcarry
  | block carry hblock hplace hexpansion hcarry hsent =>
    refine .block carry hblock hplace (fun hsends hnewline ↦ ?_) fun k hk ↦ hsent k (by omega)
    have hsame' := hsteady hsends hblock
    unfold SteadyBlock at hsame'
    rw [hsame.file, hsame.blocksize] at hsame'
    have hflags := hsame' ⟨_, _, hplace, hnewline⟩
    rw [hplace.cut_iff, hplace.cut_behind_iff hcount.blocksize] at hflags
    rw [hcarry]
    exact (Bool.eq_iff_iff.mpr hflags).symm
  | passed hblock hoffset hsent => exact .passed hoffset hsent

def NetasciiSent (start : Transfer) (n : UInt32) (packet : List UInt8) : Prop :=
  n ≠ 0 → packet = netasciiPacket start n.toNat ∧ n.toNat ≤ netasciiLast start

theorem oackPacket_ne_nil (transfer : Transfer) : oackPacket transfer ≠ [] := by
  simp [oackPacket, shortBytes]

/-- `get_block` for a transfer that is about to send. -/
theorem AboutTo.getBlock (h : AboutTo sends log start transfer)
    (hsame : SameTransfer start transfer) (hcount : NetasciiCountable start) (readable : Bool) :
    (∃ first packet, getBlock transfer readable = (first, some packet) ∧ packet ≠ [] ∧
      SameTransfer transfer first ∧
      first.block = transfer.block ∧
      ((readable = true → sends) → NetasciiSent start transfer.block packet ∧
        Sending (.sent start.number transfer.block packet :: log) start first)) ∨
    (getBlock transfer readable = (transfer, some []) ∧ SentUpTo log start (netasciiLast start)) ∨
    getBlock transfer readable = (transfer, none) := by
  have hzero : transfer.block = 0 →
    Dnsmasq.getBlock transfer readable = (transfer, some (oackPacket transfer)) :=
    fun hblock ↦ if_pos hblock
  have hsent : transfer.block = 0 → ∀ packet, NetasciiSent start transfer.block packet :=
    fun hblock _ hne ↦ absurd hblock hne
  cases h with
  | options hblock hoffset hcarry =>
    exact .inl ⟨transfer, _, hzero hblock, oackPacket_ne_nil _, ⟨rfl, rfl, rfl, rfl⟩, rfl, fun _ ↦
      ⟨hsent hblock _, .options hblock hoffset hcarry⟩⟩
  | block carry hblock hplace hcarry hbefore =>
    have hpos := (ne_zero_iff_toNat _).mp hblock
    have hread := getBlock_netascii (hsame.netascii.trans hcount.netascii) hblock
      (by rw [hsame.file]; exact hplace.inside) readable
    cases hreadable : readable with
    | false =>
      rw [hreadable, if_pos rfl] at hread
      exact .inr (.inr hread)
    | true =>
      rw [hreadable, if_neg (by simp), hsame.blocksize, hsame.file] at hread
      refine .inl ⟨_, _, hread, by simp [shortBytes], ⟨rfl, hsame.blocksize.symm, hsame.file.symm,
        rfl⟩, rfl, fun hsends ↦ ?_⟩
      have hflag :
        fillBlock start.blocksize.toNat transfer.carrylf (start.file.content.drop transfer.offset) =
          fillBlock start.blocksize.toNat carry (start.file.content.drop transfer.offset) := by
        by_cases hnewline : start.file.content[transfer.offset]? = some 10
        · rw [hcarry (hsends rfl) hnewline]
        · exact fillBlock_carry (by rwa [List.head?_drop]) _ _ _
      have hpacket : shortBytes opData ++ shortBytes transfer.block.toUInt16 ++
          (fillBlock start.blocksize.toNat carry (start.file.content.drop transfer.offset)).1 =
          netasciiPacket start transfer.block.toNat := by
        rw [hplace.fillBlock_text]
        rfl
      rw [hflag, hpacket]
      refine ⟨fun _ ↦ ⟨rfl, block_le_last hcount hpos hplace⟩, .block carry hblock hplace rfl rfl
        fun k hk ↦ ?_⟩
      rcases Nat.lt_or_ge k (transfer.block.toNat - 1) with hlt | hge
      · obtain ⟨n, packet, hn, hmem⟩ := hbefore k hlt
        exact ⟨n, packet, hn, List.mem_cons_of_mem _ hmem⟩
      · change k < transfer.block.toNat at hk
        exact ⟨transfer.block, _, by omega, List.mem_cons_self⟩
  | passed hoffset hbefore =>
    by_cases hblock : transfer.block = 0
    · exact .inl ⟨transfer, _, hzero hblock, oackPacket_ne_nil _, ⟨rfl, rfl, rfl, rfl⟩, rfl, fun _ ↦
        ⟨hsent hblock _, .passed hblock hoffset (hbefore.mono [_])⟩⟩
    · refine .inr (.inl ⟨?_, hbefore⟩)
      unfold Dnsmasq.getBlock
      rw [if_neg hblock, hsame.file, if_pos hoffset]

def NetasciiActive (start : Transfer) (log : List TftpEvent) (transfer : Transfer) : Prop :=
  SameTransfer start transfer ∧ Sending log start transfer

theorem backoff_getBlock (transfer : Transfer) (readable : Bool) :
    (getBlock transfer readable).1.backoff = transfer.backoff := by
  unfold getBlock
  split_ifs <;> rfl

theorem AboutTo.retransmit (h : AboutTo sends log start transfer)
    (hsame : SameTransfer start transfer) (hcount : NetasciiCountable start) (readable : Bool)
    (hsends : readable = true → transfer.backoff < 5 → sends) (buffer errstr : List UInt8) :
    Leaves (NetasciiActive start) (NetasciiSent start)
      (fun log ↦ SentUpTo log start (netasciiLast start)) start.number
      log (transfer.retransmit readable buffer errstr) := by
  have htimed : AboutTo sends log start
    { transfer with timeout := transfer.timeout + (1 + 2 ^ transfer.backoff) } :=
    h.of_counters rfl rfl rfl
  have hsame' :
    SameTransfer start { transfer with timeout := transfer.timeout + (1 + 2 ^ transfer.backoff) } :=
    hsame.trans ⟨rfl, rfl, rfl, rfl⟩
  unfold Transfer.retransmit
  dsimp only
  rcases htimed.getBlock hsame' hcount readable with
    ⟨first, packet, hblock, hne, hfirst, hcounter, hpacket⟩ | ⟨hblock, hdone⟩ | hblock
  · rw [hblock]
    have hkept := hsame'.trans hfirst
    have hbackoff : first.backoff = transfer.backoff := by
      have hsaved := backoff_getBlock
        { transfer with timeout := transfer.timeout + (1 + 2 ^ transfer.backoff) } readable
      rwa [hblock] at hsaved
    dsimp only at hcounter ⊢
    rw [hbackoff, if_neg hne]
    split_ifs with hfail
    · exact ⟨by simp, by simp, by simp⟩
    · have hlow : transfer.backoff < 5 := by
        by_contra hhigh
        exact hfail ⟨by omega, hne⟩
      obtain ⟨hsent, hsending⟩ := hpacket fun hread ↦ hsends hread hlow
      refine ⟨fun n sent hmem ↦ ?_, fun _ ↦ ⟨hkept.trans ⟨rfl, rfl, rfl, rfl⟩, ?_⟩, by simp⟩
      · obtain ⟨-, rfl, rfl⟩ := TftpEvent.sent.inj (List.mem_singleton.mp hmem)
        rw [hcounter]
        exact hsent
      · rw [← hkept.number, ← hcounter] at hsending
        exact hsending.of_counters rfl rfl rfl rfl
  · rw [hblock]
    dsimp only
    rw [if_neg (by simp), if_pos rfl]
    exact ⟨by simp, by simp, fun _ ↦ hdone⟩
  · rw [hblock]
    exact ⟨by simp, by simp, by simp⟩

theorem NetasciiActive.check (h : NetasciiActive start log transfer)
    (hcount : NetasciiCountable start) {input : TftpInput}
    (hsteady : SendsSteadily input transfer) :
    Leaves (NetasciiActive start) (NetasciiSent start)
      (fun log ↦ SentUpTo log start (netasciiLast start)) start.number
      log (transfer.check input) := by
  obtain ⟨hsame, hsending⟩ := h
  rcases taken_cases input transfer with ⟨-, htaken⟩ | ⟨timeout, backoff, htaken, hlater⟩
  · -- the next packet is due at once
    have hsame' : SameTransfer start (transfer.acknowledge input.now) :=
      hsame.trans ⟨rfl, rfl, rfl, rfl⟩
    have hnext : AboutTo True (.acked transfer.number (input.answered transfer.number) :: log) start
        (transfer.acknowledge input.now) := hsending.acknowledge hsame hcount input.now _
    refine leaves_check (fun _ ↦ ?_) fun hwaits ↦ ?_
    · rw [htaken]
      exact hnext.retransmit hsame' hcount _ (fun _ _ ↦ trivial) _ _
    · rw [htaken] at hwaits
      exact absurd hwaits (Int.lt_irrefl input.now)
  · refine leaves_check (fun htime ↦ ?_) fun hwaits ↦ ?_
    · have hbefore : AboutTo (input.readable transfer.number = true ∧ backoff < 5) log
        start transfer :=
        hsending.again hsame hcount fun hsends hblock ↦
          hsteady (hsame.netascii.trans hcount.netascii) hblock
            ⟨by rw [htaken], htime, hsends.1, by rw [htaken]; exact hsends.2⟩
      have hagain : AboutTo (input.readable transfer.number = true ∧ backoff < 5) log start
          { transfer with timeout := timeout, backoff := backoff } :=
            hbefore.of_counters rfl rfl rfl
      rw [htaken]
      exact hagain.retransmit (hsame.trans ⟨rfl, rfl, rfl, rfl⟩) hcount _ (fun hread hlow ↦
        ⟨hread, hlow⟩) _ _
    · rw [htaken] at hwaits ⊢
      obtain ⟨rfl, rfl⟩ := hlater hwaits
      exact ⟨hsame, hsending⟩

end Transfers

/-! ### Runs that send steadily -/

theorem carrylf_foldl_negotiate (env : TftpEnv) (options : List TftpOption) (transfer : Transfer) :
    (options.foldl (Transfer.negotiate env) transfer).carrylf = transfer.carrylf := by
  induction options generalizing transfer with
  | nil => rfl
  | cons option rest ih =>
    rw [List.foldl_cons, ih]
    cases option with
    | blksize value =>
      dsimp only [Transfer.negotiate]
      split_ifs <;> rfl
    | tsize =>
      dsimp only [Transfer.negotiate]
      split_ifs <;> rfl

theorem aboutTo_newTransfer (env : TftpEnv) (number : ℕ) (now : ℤ) (request : TftpRequest)
    (expansion : UInt32) (log : List TftpEvent) :
    AboutTo True log (newTransfer env number now request expansion)
      (newTransfer env number now request expansion) := by
  have hcarry : (newTransfer env number now request expansion).carrylf = false :=
    carrylf_foldl_negotiate env _ _
  have hoffset := newTransfer_offset env number now request expansion
  rcases newTransfer_block env number now request expansion with hone | hzero
  · refine .block false (by simp [hone]) ?_ (fun _ _ ↦ hcarry) fun k hk ↦ ?_
    · rw [hone, hoffset]
      exact ⟨by simp, Nat.zero_le _, by simp⟩
    · simp [hone] at hk
  · exact .options hzero hoffset hcarry

def netasciiRule {start : Transfer} (hcount : NetasciiCountable start)
    (hbegins : ∀ log, AboutTo True log start start) : TransferRule start SendsSteadily where
  active := NetasciiActive start
  sent := NetasciiSent start
  finished log := SentUpTo log start (netasciiLast start)
  active_mono more h := ⟨h.1, h.2.mono more⟩
  finished_mono more h := h.mono more
  begins := by
    intro readable first packet log hblock
    rcases (hbegins log).getBlock ⟨rfl, rfl, rfl, rfl⟩ hcount readable with
      ⟨other, sent, hother, -, hsame, hcounter, hsent⟩ | ⟨hend, -⟩ | hfail
    · rw [hblock] at hother
      obtain ⟨rfl, hpacket⟩ := Prod.mk.inj hother
      obtain rfl := Option.some.inj hpacket
      obtain ⟨hwell, hsending⟩ := hsent fun _ ↦ trivial
      rw [hcounter, hsame.number]
      exact ⟨⟨hsame, hsending⟩, hwell⟩
    · -- nothing was sent before
      rcases (hbegins []).getBlock ⟨rfl, rfl, rfl, rfl⟩ hcount readable with
        ⟨_, _, hother, hne, -⟩ | ⟨-, hnever⟩ | hfail
      · rw [hend] at hother
        exact absurd (Option.some.inj (Prod.mk.inj hother).2).symm hne
      · obtain ⟨_, _, _, hmem⟩ := hnever 0 (Nat.succ_pos _)
        cases hmem
      · rw [hend] at hfail
        cases hfail
    · rw [hblock] at hfail
      cases hfail
  check h _ hsteady := h.check hcount hsteady

theorem NetasciiCountable.delivers {start : Transfer} (hcount : NetasciiCountable start)
    (hbegins : ∀ log, AboutTo True log start start) {env : TftpEnv} {s : TftpState}
    (hreach : Reachable (tftpSystem env) (Permits start fun _ ↦ SendsSteadily) s)
    (hstart : .started start ∈ s.log) : NetasciiDelivers s start := by
  have hinv := (netasciiRule hcount hbegins).inv hreach
  have hsent : ∀ n packet, .sent start.number n packet ∈ s.log → NetasciiSent start n packet :=
    hinv.sent hstart
  refine ⟨fun n packet other hpacket hother hne ↦ ?_, fun packets hpackets ↦
    ?_, fun n packet hpacket hne ↦ ?_, hinv.finished hstart⟩
  · rw [(hsent n packet hpacket hne).1, (hsent n other hother hne).1]
  · rw [← flatMap_netasciiPacket hcount.blocksize]
    refine List.flatMap_congr fun k hk ↦ ?_
    obtain ⟨n, hn, hpacket⟩ := hpackets k (List.mem_range.mp hk)
    rw [(hsent n _ hpacket ((ne_zero_iff_toNat n).mpr (by omega))).1, hn]
  · obtain ⟨rfl, hle⟩ := hsent n packet hpacket hne
    exact ⟨hle, short_netasciiPacket_iff hcount.blocksize ((ne_zero_iff_toNat n).mp hne) hle⟩

/-- In a run that repeats only blocks of a transfer that can be sent again, the text of the file is
delivered, if the counter is large enough for it. -/
theorem netasciiDelivers_of_steady (env : TftpEnv) (request : TftpRequest)
    (hmode : request.netascii = true) (hsize : 0 < (requestBlocksize env request).toNat)
    (hlength : (netasciiText request.file.content).length <
      (2 ^ 32 - 1) * (requestBlocksize env request).toNat)
    (number : ℕ) (now : ℤ) (expansion : UInt32) {s : TftpState}
    (hreach : Reachable (tftpSystem env)
      (Permits (newTransfer env number now request expansion) fun _ ↦ SendsSteadily) s)
    (hstart : .started (newTransfer env number now request expansion) ∈ s.log) :
    NetasciiDelivers s (newTransfer env number now request expansion) := by
  refine NetasciiCountable.delivers ⟨by rw [newTransfer_netascii, hmode], ?_, ?_⟩
    (aboutTo_newTransfer env number now request expansion) hreach hstart
  · rw [newTransfer_blocksize]
    exact hsize
  · rw [newTransfer_blocksize, newTransfer_file]
    exact hlength

/-! ### Blocks that are sent again -/

/-- The client acknowledges a block, or waits. -/
def ackedInput (block : UInt16) : TftpInput :=
  ⟨0, fun _ ↦ some (shortBytes opAck ++ shortBytes block), fun _ ↦ block.toUInt32,
    fun _ ↦ true, [], []⟩

def lostInput : TftpInput := ⟨1000, fun _ ↦ none, fun _ ↦ 0, fun _ ↦ true, [], []⟩

def checkedState (request : TftpRequest) (inputs : List TftpInput) : TftpState :=
  inputs.foldl checkTftpListeners (tftpRequest etherEnv ⟨[], [], 0, []⟩ 0 request 0 true [] [])

section Checked

variable {start : Transfer} {allowed : List TftpEvent → TftpInput → Transfer → Prop}
    {request : TftpRequest} {inputs : List TftpInput}

theorem reachable_request (request : TftpRequest) :
    Reachable (tftpSystem etherEnv) (Permits start allowed) (checkedState request []) := by
  have hstep : (tftpSystem etherEnv).step ⟨[], [], 0, []⟩ (.request 0 request 0 true [] [])
    (checkedState request []) := rfl
  have hpermits : Permits start allowed ⟨[], [], 0, []⟩ (.request 0 request 0 true [] []) := trivial
  exact (Reachable.start rfl).step hpermits hstep

theorem reachable_check
    (h : Reachable (tftpSystem etherEnv) (Permits start allowed) (checkedState request inputs))
    {input : TftpInput} (hallowed : ∀ transfer ∈ (checkedState request inputs).trans,
      allowed (checkedState request inputs).log input transfer) :
    Reachable (tftpSystem etherEnv) (Permits start allowed)
      (checkedState request (inputs ++ [input])) := by
  have hstep : (tftpSystem etherEnv).step (checkedState request inputs) (.check input)
      (checkedState request (inputs ++ [input])) := by
    unfold checkedState
    rw [List.foldl_append]
    rfl
  have hpermits : Permits start allowed (checkedState request inputs) (.check input) :=
    fun _ transfer hmem _ ↦ hallowed transfer hmem
  exact h.step hpermits hstep

end Checked

/-- A file with a newline behind one character, in blocks of one byte. -/
def lineRequest : TftpRequest := ⟨true, [.blksize 1], ⟨[97, 10], asciiBytes "line"⟩⟩

/-- The first block is sent twice. -/
theorem netasciiDelivers_of_steady_line :
    NetasciiDelivers (checkedState lineRequest [ackedInput 0, lostInput])
      (newTransfer etherEnv 0 0 lineRequest 0) := by
  have hstart : Reachable (tftpSystem etherEnv)
      (Permits (newTransfer etherEnv 0 0 lineRequest 0) fun _ ↦ SendsSteadily)
      (checkedState lineRequest [ackedInput 0]) :=
    reachable_check (reachable_request lineRequest) fun transfer hmem _ hblock ↦ by
      obtain rfl := List.mem_singleton.mp hmem
      exact absurd rfl hblock
  have hagain : Reachable (tftpSystem etherEnv)
      (Permits (newTransfer etherEnv 0 0 lineRequest 0) fun _ ↦ SendsSteadily)
      (checkedState lineRequest [ackedInput 0, lostInput]) :=
    reachable_check hstart fun transfer hmem _ _ _ ↦ by
      obtain rfl := List.mem_singleton.mp hmem
      rintro ⟨offset, carry, hplace, hnewline⟩
      -- the block begins before the newline
      have hbefore : offset = 1 := by
        match offset, hnewline with
        | 0, hnewline => exact absurd hnewline (by decide)
        | 1, _ => rfl
      subst hbefore
      exact absurd hplace.position (by cases carry <;> decide)
  exact netasciiDelivers_of_steady etherEnv lineRequest rfl (by decide) (by decide) 0 0 0 hagain
    (List.mem_of_getElem? (rfl : _ =
      (checkedState lineRequest [ackedInput 0, lostInput]).log[4]?).symm)

def newlineRequest : TftpRequest := ⟨true, [.blksize 1], ⟨[10], asciiBytes "newline"⟩⟩

/-- The second block is the newline when it is first sent, and a carriage return when it is sent
again. -/
theorem not_netasciiDelivers_newline :
    ¬∀ (env : TftpEnv) (request : TftpRequest) (number : ℕ) (now : ℤ) (expansion : UInt32)
    (s : TftpState),
      request.netascii = true → 0 < (requestBlocksize env request).toNat → TftpReachable env s →
      .started (newTransfer env number now request expansion) ∈ s.log →
      NetasciiDelivers s (newTransfer env number now request expansion) := by
  intro hall
  have hreach : TftpReachable etherEnv
      (checkedState newlineRequest [ackedInput 0, ackedInput 1, lostInput]) := by
    have hstart := @reachable_request (newTransfer etherEnv 0 0 newlineRequest 0)
      (fun _ _ _ ↦ True) newlineRequest
    have hfirst := @reachable_check _ _ _ _ hstart (ackedInput 0) fun _ _ ↦ trivial
    have hsecond := @reachable_check _ _ _ _ hfirst (ackedInput 1) fun _ _ ↦ trivial
    exact (@reachable_check _ _ _ _ hsecond lostInput fun _ _ ↦ trivial).mono fun _ _ _ ↦ trivial
  have hdelivers := hall etherEnv newlineRequest 0 0 0 _ rfl (by decide) hreach
    (List.mem_of_getElem? (rfl : _ =
      (checkedState newlineRequest [ackedInput 0, ackedInput 1, lostInput]).log[6]?).symm)
  have hagain : .sent 0 2 [0, 3, 0, 2, 13] ∈ (checkedState newlineRequest [ackedInput 0,
    ackedInput 1, lostInput]).log :=
    List.mem_of_getElem? (rfl : _ =
      (checkedState newlineRequest [ackedInput 0, ackedInput 1, lostInput]).log[0]?).symm
  have hfirst : .sent 0 2 [0, 3, 0, 2, 10] ∈ (checkedState newlineRequest [ackedInput 0,
    ackedInput 1, lostInput]).log :=
    List.mem_of_getElem? (rfl : _ =
      (checkedState newlineRequest [ackedInput 0, ackedInput 1, lostInput]).log[1]?).symm
  have hsame := hdelivers.identical 2 _ _ hagain hfirst (by decide)
  exact absurd hsame (by decide)

end CrossBreeder.Dnsmasq
