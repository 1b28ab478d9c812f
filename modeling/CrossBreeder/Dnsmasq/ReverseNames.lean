import CrossBreeder.Dnsmasq.Packet
import CrossBreeder.Foundation.SeparatedText

/-!
# Reverse names

`ReverseName` says which names are names of an address: at most four labels of bytes, at most 32
labels of half bytes, or one label with the bits. `in_arpa_name_2_addr` accepts more.
`reverseName_iff` says that `NumbersFit` excludes exactly the other names, and that names with the
same full address then have the same numbers.
-/

namespace CrossBreeder.Dnsmasq

open Foundation

/-! ### The names of addresses -/

def decimalValue (digits : List UInt8) :
    ℕ := digits.foldl (fun value c ↦ value * 10 + (c.toNat - 48)) 0

structure ByteLabel (label : List UInt8) (value : ℕ) : Prop where
  nonempty : label ≠ []
  digits : label.all (fun c ↦ 48 ≤ c ∧ c ≤ 57) = true
  value_eq : decimalValue label = value
  value_le : value ≤ 255

def NibbleLabel (label : List UInt8) (value : ℕ) : Prop := ∃ c, label = [c] ∧ xdigit c = some value

def numericLabels (name : List UInt8) : List (List UInt8) := (name.splitOn 46).dropLast.dropLast

def InTree (name : List UInt8) (labels : List (List UInt8)) (tree top : List UInt8) : Prop :=
  ∃ pen last, name.splitOn 46 = labels ++ [pen, last] ∧ hostnameIsequal pen tree = true ∧
    hostnameIsequal last top = true

/-- `ReverseName name v6 addr`: the name is one of the address. The labels are those of the bytes or
the half bytes, from the last one on, where bytes or half bytes that are left out are zero. Or there
is one label with all bits, from the first one on, whose digits are as many as the bits need. -/
inductive ReverseName (name : List UInt8) : Bool → List UInt8 → Prop
  | ipv4 {labels : List (List UInt8)} {values : List ℕ}
      (htree : InTree name labels "in-addr".toUTF8.toList "arpa".toUTF8.toList) (hcount :
        labels.length ≤ 4)
      (hlabels : List.Forall₂ ByteLabel labels values) :
      ReverseName name false (values.reverse.map UInt8.ofNat ++
        List.replicate (4 - values.length) 0)
  | nibbles {labels : List (List UInt8)} {values : List ℕ} {top : List UInt8}
      (htop : top = "int".toUTF8.toList ∨ top = "arpa".toUTF8.toList)
      (htree : InTree name labels "ip6".toUTF8.toList top) (hcount : labels.length ≤ 32)
      (hlabels : List.Forall₂ NibbleLabel labels values) :
      ReverseName name true (pairDigits (values.reverse ++ List.replicate (32 - values.length) 0))
  | bitstring {x : UInt8} {text : List UInt8} {values : List ℕ} {bits : ℕ} {top : List UInt8}
      (htop : top = "int".toUTF8.toList ∨ top = "arpa".toUTF8.toList)
      (htree : InTree name [[92, 91, x] ++ text ++ [47] ++ decimal bits ++ [93]] "ip6".toUTF8.toList
        top)
      (hx : x = 120 ∨ x = 88) (hbits : 1 ≤ bits ∧ bits ≤ 128)
      (hdigits : List.Forall₂ (fun c value ↦ xdigit c = some value) text values)
      (hcount : values.length = (bits - 1) / 4 + 1) (hrest :
        values.getLastD 0 % 2 ^ (4 * values.length - bits) = 0) :
      ReverseName name true (pairDigits (values ++ List.replicate (32 - values.length) 0))

/-! ### Half bytes -/

theorem xdigit_lt {c : UInt8} {value : ℕ} (h : xdigit c = some value) : value < 16 := by
  have hall : ∀ c : UInt8, ∀ value ∈ xdigit c, value < 16 := by
    intro c value hvalue
    unfold xdigit at hvalue
    split_ifs at hvalue with h1 h2 h3 <;> simp [UInt8.le_iff_toNat_le] at * <;> omega
  exact hall c value h

theorem byte_shift {high low before : ℕ} (hhigh : high < 16) (hlow : low < 16) :
    (UInt8.ofNat (high * 16 + low) >>> 4) ||| (UInt8.ofNat before <<< 4) = UInt8.ofNat
      (before % 16 * 16 + high) := by
  have hright : ∀ high low : Fin 16, UInt8.ofNat (high.val * 16 + low.val) >>> 4 = UInt8.ofNat
    high.val := by decide +kernel
  have hleft : UInt8.ofNat before <<< 4 = UInt8.ofNat (before % 16) <<< 4 := by
    apply UInt8.toNat_inj.mp
    simp [Nat.shiftLeft_eq]
    omega
  have hor : ∀ low high : Fin 16, UInt8.ofNat high.val ||| (UInt8.ofNat low.val <<< 4) = UInt8.ofNat
    (low.val * 16 + high.val) := by
    decide +kernel
  rw [hleft, hright ⟨high, hhigh⟩ ⟨low, hlow⟩]
  exact hor ⟨before % 16, Nat.mod_lt _ (by decide)⟩ ⟨high, hhigh⟩

theorem shift_pairDigits (nibbles : List ℕ) : ∀ before : ℕ, nibbles.length % 2 = 0 →
    (∀ n ∈ nibbles, n < 16) →
    List.zipWith (fun (before byte : UInt8) ↦ (byte >>> 4) ||| (before <<< 4))
      (UInt8.ofNat before :: pairDigits nibbles)
      (pairDigits nibbles) = pairDigits (before % 16 :: nibbles) := by
  induction nibbles using pairDigits.induct with
  | case1 high low nibbles ih =>
    intro before heven hsmall
    obtain ⟨hhigh, hsmall⟩ := List.forall_mem_cons.mp hsmall
    obtain ⟨hlow, hsmall⟩ := List.forall_mem_cons.mp hsmall
    simp only [List.length_cons] at heven
    rw [pairDigits, List.zipWith_cons_cons,
      ih _ (by omega) hsmall, byte_shift hhigh hlow, pairDigits]
    have hmod : (high * 16 + low) % 16 = low := by omega
    rw [hmod]
  | case2 nibbles hshort =>
    intro before heven _
    cases nibbles with
    | nil => rfl
    | cons n nibbles =>
      cases nibbles with
      | nil => simp at heven
      | cons n' nibbles => exact (hshort _ _ _ rfl).elim

theorem pairDigits_take (nibbles : List ℕ) : pairDigits (nibbles.take (nibbles.length / 2 * 2)) =
    pairDigits nibbles := by
  induction nibbles using pairDigits.induct with
  | case1 high low nibbles ih =>
    have hlength : (high :: low :: nibbles).length / 2 * 2 = nibbles.length / 2 * 2 + 1 + 1 := by
      simp only [List.length_cons]
      omega
    rw [hlength, List.take_succ_cons, List.take_succ_cons, pairDigits, pairDigits, ih]
  | case2 nibbles hshort =>
    cases nibbles with
    | nil => rfl
    | cons n nibbles =>
      cases nibbles with
      | nil => simp [pairDigits]
      | cons n' nibbles => exact (hshort _ _ _ rfl).elim

theorem take_append_take {α : Type*} (front back : List α) (n : ℕ) :
    (front ++ back.take n).take n = (front ++ back).take n := by
  rw [List.take_append, List.take_append, List.take_take, Nat.min_eq_left (Nat.sub_le _ _)]

variable {labels : List (List UInt8)}

theorem arpaAddr6_spec : ∀ {nibbles : List ℕ} {addr : List UInt8}, nibbles.length = 32 →
    (∀ n ∈ nibbles, n < 16) → arpaAddr6 labels (pairDigits nibbles) = some addr →
      ∃ values, List.Forall₂ NibbleLabel labels values ∧ addr = pairDigits
      ((values.reverse ++ nibbles).take 32) := by
  induction labels with
  | nil =>
    intro nibbles addr hlength _ h
    cases h
    exact ⟨[], .nil, by rw [List.reverse_nil, List.nil_append, List.take_of_length_le (by omega)]⟩
  | cons label labels ih =>
    intro nibbles addr hlength hsmall h
    obtain ⟨c, rfl⟩ : ∃ c, label = [c] := by
      cases label with
      | nil => simp [arpaAddr6] at h
      | cons c rest =>
        cases rest with
        | nil => exact ⟨c, rfl⟩
        | cons => simp [arpaAddr6] at h
    rw [arpaAddr6] at h
    cases hdig : xdigit c with
    | none => simp [hdig] at h
    | some dig =>
      have hlt := xdigit_lt hdig
      have hshift : shiftNibble (pairDigits nibbles) dig =
        pairDigits ((dig :: nibbles).take 32) := by
        have htake := pairDigits_take (dig :: nibbles)
        have hhalf : (dig :: nibbles).length / 2 * 2 = 32 := by rw [List.length_cons, hlength]
        rw [hhalf] at htake
        rw [shiftNibble,
          shift_pairDigits nibbles dig (by omega) hsmall, Nat.mod_eq_of_lt hlt, htake]
      rw [hdig] at h
      simp only [hshift] at h
      obtain ⟨values, hvalues, rfl⟩ := ih (by rw [List.length_take, List.length_cons, hlength]; rfl)
        (fun n hn ↦ (List.mem_cons.mp (List.mem_of_mem_take hn)).elim (fun heq ↦
          heq ▸ hlt) (hsmall n)) h
      refine ⟨dig :: values, .cons ⟨c, rfl, hdig⟩ hvalues, ?_⟩
      rw [take_append_take, List.reverse_cons, List.append_assoc, List.singleton_append]

theorem atoiByte_eq {label : List UInt8} (h : decimalValue label ≤ 255) :
    atoiByte label = UInt8.ofNat (decimalValue label) := by
  change UInt8.ofNat (min (decimalValue label) (2 ^ 63 - 1)) = _
  rw [Nat.min_eq_left (by omega)]

theorem arpaAddr4_spec : ∀ {addr addr' : List UInt8}, addr.length = 4 →
    arpaAddr4 labels addr = some addr' →
      (∀ label ∈ labels, label.all (fun c ↦ 48 ≤ c ∧ c ≤ 57) = true) ∧
        addr' = ((labels.map atoiByte).reverse ++ addr).take 4 := by
  induction labels with
  | nil =>
    intro addr addr' hlength h
    cases h
    exact ⟨by simp, by rw [List.map_nil, List.reverse_nil, List.nil_append,
      List.take_of_length_le (by omega)]⟩
  | cons label labels ih =>
    intro addr addr' hlength h
    rw [arpaAddr4] at h
    split_ifs at h with hdigits
    obtain ⟨hall, rfl⟩ := ih (by rw [List.length_cons, List.length_take, hlength]; rfl) h
    refine ⟨List.forall_mem_cons.mpr ⟨hdigits, hall⟩, ?_⟩
    have htake : atoiByte label :: addr.take 3 = (atoiByte label :: addr).take 4 := rfl
    rw [htake, take_append_take, List.map_cons, List.reverse_cons, List.append_assoc,
      List.singleton_append]

theorem leadingDigits_spec (count : ℕ) : ∀ text : List UInt8, ∃ front,
    text = front ++ (leadingDigits count text).2 ∧
      List.Forall₂ (fun c value ↦ xdigit c = some value) front (leadingDigits count text).1 := by
  induction count with
  | zero => exact fun text ↦ ⟨[], rfl, .nil⟩
  | succ count ih =>
    intro text
    cases text with
    | nil => exact ⟨[], rfl, .nil⟩
    | cons c text =>
      rw [leadingDigits]
      cases hdig : xdigit c with
      | none => exact ⟨[], rfl, .nil⟩
      | some dig =>
        obtain ⟨front, htext, hdigits⟩ := ih text
        exact ⟨c :: front, by simpa using htext, .cons hdig hdigits⟩

/-! ### What the function accepts -/

def StartsBits (name : List UInt8) : Prop := name.take 2 =
    [92, 91] ∧ (name.getD 2 0 = 120 ∨ name.getD 2 0 = 88)

instance (name : List UInt8) : Decidable (StartsBits name) := inferInstanceAs (Decidable (_ ∧ _))

theorem numericLabels_eq {name : List UInt8} {pen last : List UInt8}
    (h : name.splitOn 46 = labels ++ [pen, last]) : numericLabels name = labels := by
  rw [numericLabels, h]
  simp

variable {name addr : List UInt8}

theorem inArpaName2Addr_cases {v6 : Bool} (h : inArpaName2Addr name = some (v6, addr)) :
    numericLabels name ≠ [] ∧
    ((v6 = false ∧ InTree name (numericLabels name) "in-addr".toUTF8.toList "arpa".toUTF8.toList ∧
        arpaAddr4 (numericLabels name) (List.replicate 4 0) = some addr) ∨
      (v6 = true ∧ (∃ top, (top = "int".toUTF8.toList ∨ top = "arpa".toUTF8.toList) ∧
          InTree name (numericLabels name) "ip6".toUTF8.toList top) ∧
        (StartsBits name ∧ bitstringAddr (((name.splitOn 46).headD []).drop 3) = some addr ∨
          ¬ StartsBits name ∧ arpaAddr6 (numericLabels name) (List.replicate 16 0) = some addr)))
          := by
  rw [inArpaName2Addr] at h
  by_cases hlong : maxArpaname < name.length
  · rw [if_pos hlong] at h
    cases h
  rw [if_neg hlong] at h
  cases hreverse : (name.splitOn 46).reverse with
  | nil => simp [hreverse] at h
  | cons last chunks =>
    cases chunks with
    | nil => simp [hreverse] at h
    | cons pen labels =>
      have hsplit : name.splitOn 46 = labels.reverse ++ [pen, last] := by
        rw [← List.reverse_reverse (name.splitOn 46), hreverse]
        simp
      have hlabels : numericLabels name = labels.reverse := numericLabels_eq hsplit
      simp only [hreverse] at h
      by_cases hfew : (name.splitOn 46).length < 3
      · rw [if_pos hfew] at h
        cases h
      rw [if_neg hfew] at h
      have hne : numericLabels name ≠ [] := by
        intro hnil
        rw [hsplit, ← hlabels, hnil] at hfew
        exact hfew (by decide : 2 < 3)
      rw [hlabels] at hne ⊢
      refine ⟨hne, ?_⟩
      by_cases hv4 : hostnameIsequal last "arpa".toUTF8.toList =
        true ∧ hostnameIsequal pen "in-addr".toUTF8.toList = true
      · rw [if_pos hv4] at h
        obtain ⟨addr', haddr, heq⟩ := Option.map_eq_some_iff.mp h
        cases heq
        exact Or.inl ⟨rfl, ⟨pen, last, hsplit, hv4.2, hv4.1⟩, haddr⟩
      rw [if_neg hv4] at h
      by_cases hv6 : hostnameIsequal pen "ip6".toUTF8.toList = true ∧
          (hostnameIsequal last "int".toUTF8.toList = true ∨
            hostnameIsequal last "arpa".toUTF8.toList = true)
      · rw [if_pos hv6] at h
        have htop : ∃ top, (top = "int".toUTF8.toList ∨ top = "arpa".toUTF8.toList) ∧
            InTree name labels.reverse "ip6".toUTF8.toList top := by
          rcases hv6.2 with hint | harpa
          · exact ⟨_, Or.inl rfl, pen, last, hsplit, hv6.1, hint⟩
          · exact ⟨_, Or.inr rfl, pen, last, hsplit, hv6.1, harpa⟩
        by_cases hbits : name.take 2 = [92, 91] ∧ (name.getD 2 0 = 120 ∨ name.getD 2 0 = 88)
        · rw [if_pos hbits] at h
          obtain ⟨addr', haddr, heq⟩ := Option.map_eq_some_iff.mp h
          cases heq
          exact Or.inr ⟨rfl, htop, Or.inl ⟨hbits, haddr⟩⟩
        · rw [if_neg hbits] at h
          obtain ⟨addr', haddr, heq⟩ := Option.map_eq_some_iff.mp h
          cases heq
          exact Or.inr ⟨rfl, htop, Or.inr ⟨hbits, haddr⟩⟩
      · rw [if_neg hv6] at h
        cases h

theorem eq_first_append {name first : List UInt8} {rest : List (List UInt8)}
    (h : name.splitOn 46 = first :: rest) :
    name = first ∧ rest = [] ∨ ∃ tail, name = first ++ 46 :: tail := by
  have hname : name = (terminated 46 (name.splitOn 46)).dropLast := by
    rw [terminated_splitOn, List.dropLast_concat]
  rw [h] at hname
  cases rest with
  | nil => exact Or.inl ⟨by simpa using hname, rfl⟩
  | cons next rest =>
    rw [dropLast_terminated_cons first (by simp)] at hname
    exact Or.inr ⟨_, hname⟩

theorem startsBits_iff {name first : List UInt8} {rest : List (List UInt8)}
    (h : name.splitOn 46 = first :: rest) :
    StartsBits name ↔ ∃ x text, first = 92 :: 91 :: x :: text ∧ (x = 120 ∨ x = 88) := by
  have hsplit := eq_first_append h
  constructor
  · rintro ⟨htake, hx⟩
    match first, hsplit with
    | [], hsplit => rcases hsplit with ⟨rfl, -⟩ | ⟨tail, rfl⟩ <;> simp at htake
    | [a], hsplit => rcases hsplit with ⟨rfl, -⟩ | ⟨tail, rfl⟩ <;> simp at htake
    | [a, b], hsplit => rcases hsplit with ⟨rfl, -⟩ | ⟨tail, rfl⟩ <;> simp at hx
    | a :: b :: x :: text, hsplit =>
      have hhead : a = 92 ∧ b = 91 := by
        rcases hsplit with ⟨rfl, -⟩ | ⟨tail, rfl⟩ <;> simpa using htake
      obtain ⟨rfl, rfl⟩ := hhead
      exact ⟨x, text, rfl, by rcases hsplit with ⟨rfl, -⟩ | ⟨tail, rfl⟩ <;> simpa using hx⟩
  · rintro ⟨x, text, rfl, hx⟩
    rcases hsplit with ⟨rfl, -⟩ | ⟨tail, rfl⟩ <;> exact ⟨rfl, hx⟩

/-- The numbers in a name are those of an address: bytes, half bytes or a bitstring of so many bits
as it has digits for. -/
def NumbersFit (name : List UInt8) : Bool → Prop
  | false => (numericLabels name).length ≤ 4 ∧ ∀ label ∈ numericLabels name, label ≠ [] ∧
    decimalValue label ≤ 255
  | true =>
    if StartsBits name then
      ∃ label bits, numericLabels name = [label] ∧ 125 ≤ bits ∧ bits ≤ 128 ∧
        label.drop 35 = 47 :: decimal bits ++ [93] ∧
          (xdigit (label.getD 34 0)).getD 0 % 2 ^ (128 - bits) = 0
    else (numericLabels name).length ≤ 32

theorem forall₂_byteLabel
    (hdigits : ∀ label ∈ labels, label.all (fun c ↦ 48 ≤ c ∧ c ≤ 57) = true)
    (hfit : ∀ label ∈ labels, label ≠ [] ∧ decimalValue label ≤ 255) :
    List.Forall₂ ByteLabel labels (labels.map decimalValue) := by
  rw [List.forall₂_map_right_iff, List.forall₂_same]
  exact fun label hmem ↦ ⟨(hfit label hmem).1, hdigits label hmem, rfl, (hfit label hmem).2⟩

theorem reverseName_ipv4
    (htree : InTree name (numericLabels name) "in-addr".toUTF8.toList "arpa".toUTF8.toList)
    (haddr : arpaAddr4 (numericLabels name) (List.replicate 4 0) = some addr)
    (hfit : NumbersFit name false) :
    ReverseName name false addr := by
  obtain ⟨hcount, hlabels⟩ := hfit
  obtain ⟨hdigits, rfl⟩ := arpaAddr4_spec (by simp) haddr
  have hbytes : (numericLabels name).map atoiByte =
    ((numericLabels name).map decimalValue).map UInt8.ofNat := by
    rw [List.map_map]
    exact List.map_congr_left fun label hmem ↦ atoiByte_eq (hlabels label hmem).2
  have hname := ReverseName.ipv4 htree hcount (forall₂_byteLabel hdigits hlabels)
  have htake : (((numericLabels name).map atoiByte).reverse ++ List.replicate 4 0).take 4 =
      ((numericLabels name).map decimalValue).reverse.map UInt8.ofNat ++
        List.replicate (4 - ((numericLabels name).map decimalValue).length) 0 := by
    rw [hbytes, ← List.map_reverse, List.take_append,
      List.take_of_length_le (by simpa using hcount), List.take_replicate]
    simp
  rw [htake]
  exact hname

theorem reverseName_nibbles {name addr top : List UInt8}
    (htop : top = "int".toUTF8.toList ∨ top = "arpa".toUTF8.toList)
    (htree : InTree name (numericLabels name) "ip6".toUTF8.toList top)
    (haddr : arpaAddr6 (numericLabels name) (List.replicate 16 0) = some addr)
    (hcount : (numericLabels name).length ≤ 32) :
    ReverseName name true addr := by
  have hzeros : List.replicate 16 0 = pairDigits (List.replicate 32 0) := rfl
  rw [hzeros] at haddr
  obtain ⟨values, hvalues, rfl⟩ := arpaAddr6_spec (by simp) (by simp) haddr
  have hlength := hvalues.length_eq
  have htake : (values.reverse ++ List.replicate 32 0).take 32 =
    values.reverse ++ List.replicate (32 - values.length) 0 := by
    rw [List.take_append,
      List.take_of_length_le (by rw [List.length_reverse]; omega), List.take_replicate]
    simp
  rw [htake]
  exact .nibbles htop htree hcount hvalues

variable {values : List ℕ}

theorem leadingDigits_append {text : List UInt8} (behind : List UInt8)
    (hdigits : List.Forall₂ (fun c value ↦ xdigit c = some value) text values) :
    ∀ {count : ℕ}, values.length ≤ count →
      leadingDigits count (text ++ 47 :: behind) = (values, 47 :: behind) := by
  induction hdigits with
  | nil =>
    intro count _
    cases count <;> rfl
  | @cons c value text values hdig _ ih =>
    intro count hcount
    cases count with
    | zero => cases hcount
    | succ count =>
      rw [List.length_cons] at hcount
      rw [List.cons_append, leadingDigits, hdig]
      simp only [ih (Nat.le_of_succ_le_succ hcount)]

theorem lastDigit_eq (x : UInt8) {text : List UInt8} (behind : List UInt8)
    (hdigits : List.Forall₂ (fun c value ↦ xdigit c = some value) text values)
    (hlength : values.length = 32) :
    (xdigit (([92, 91, x] ++ text ++ behind).getD 34 0)).getD 0 = values.getLastD 0 := by
  have htext : text.length = 32 := hdigits.length_eq.trans hlength
  obtain ⟨front, value, rfl⟩ : ∃ front value, values = front ++ [value] :=
    ⟨_, _, (List.dropLast_concat_getLast (List.ne_nil_of_length_pos (by omega))).symm⟩
  obtain ⟨init, c, rfl⟩ : ∃ init c, text = init ++ [c] :=
    ⟨_, _, (List.dropLast_concat_getLast (List.ne_nil_of_length_pos (by omega))).symm⟩
  have hlast : xdigit c = some value := by
    have hreverse := List.forall₂_reverse_iff.mpr hdigits
    rw [List.reverse_append, List.reverse_append] at hreverse
    cases hreverse with
    | cons hlast _ => exact hlast
  have hinit : init.length = 31 := by simpa using htext
  have hget : ([92, 91, x] ++ (init ++ [c]) ++ behind).getD 34 0 = c := by
    simp [hinit]
  rw [hget, hlast]
  simp

theorem reverseName_bitstring {name addr top : List UInt8}
    (htop : top = "int".toUTF8.toList ∨ top = "arpa".toUTF8.toList)
    (htree : InTree name (numericLabels name) "ip6".toUTF8.toList top) (hstart : StartsBits name)
    (haddr : bitstringAddr (((name.splitOn 46).headD []).drop 3) = some addr)
    (hfit : NumbersFit name true) :
    ReverseName name true addr := by
  rw [NumbersFit, if_pos hstart] at hfit
  obtain ⟨label, bits, hlabel, hlow, hhigh, hdrop, hlast⟩ := hfit
  rw [hlabel] at htree
  have hsplit : name.splitOn 46 = label :: (name.splitOn 46).tail := by
    obtain ⟨pen, last, hsplit, -⟩ := htree
    rw [hsplit]
    rfl
  obtain ⟨x, text, rfl, hx⟩ := (startsBits_iff hsplit).mp hstart
  rw [hsplit] at haddr
  change bitstringAddr text = some addr at haddr
  obtain ⟨front, htext, hdigits⟩ := leadingDigits_spec 32 text
  rw [bitstringAddr] at haddr
  generalize leadingDigits 32 text = leading at htext hdigits haddr
  obtain ⟨values, behind⟩ := leading
  dsimp only at htext hdigits haddr
  split_ifs at haddr with hgood
  cases haddr
  subst htext
  have hfront : front.length = 32 := hdigits.length_eq.trans hgood.2
  have hbehind : behind = 47 :: decimal bits ++ [93] := by
    rw [← hdrop]
    change behind = (front ++ behind).drop 32
    rw [← hfront, List.drop_left]
  have hlabeltext : 92 :: 91 :: x :: (front ++ behind) =
    [92, 91, x] ++ front ++ [47] ++ decimal bits ++ [93] := by
    rw [hbehind]
    simp
  have hvalue : values.getLastD 0 % 2 ^ (4 * values.length - bits) = 0 := by
    rw [← lastDigit_eq x behind hdigits hgood.2, hgood.2]
    simpa using hlast
  have hname :=
    ReverseName.bitstring htop (hlabeltext ▸ htree) hx ⟨by omega, hhigh⟩ hdigits (by omega) hvalue
  rw [hgood.2, Nat.sub_self, List.replicate_zero, List.append_nil] at hname
  exact hname

theorem exists_of_forall₂ {α β : Type*} {R : α → β → Prop} {xs : List α} {ys : List β}
    (h : List.Forall₂ R xs ys) : ∀ x ∈ xs, ∃ y, R x y := by
  induction h with
  | nil => simp
  | cons hxy _ ih => exact List.forall_mem_cons.mpr ⟨⟨_, hxy⟩, ih⟩

theorem numbersFit_ipv4 (h : ReverseName name false addr) : NumbersFit name false := by
  cases h with
  | ipv4 htree hcount hlabels =>
    obtain ⟨pen, last, hsplit, -⟩ := htree
    rw [NumbersFit, numericLabels_eq hsplit]
    refine ⟨hcount, fun label hmem ↦ ?_⟩
    obtain ⟨value, hvalue⟩ := exists_of_forall₂ hlabels label hmem
    exact ⟨hvalue.nonempty, hvalue.value_eq ▸ hvalue.value_le⟩

theorem not_startsBits_of_nibbles {name pen last : List UInt8}
    (hsplit : name.splitOn 46 = labels ++ [pen, last]) (hne : labels ≠ [])
    (hlabels : List.Forall₂ NibbleLabel labels values) : ¬ StartsBits name := by
  obtain ⟨label, labels, rfl⟩ := List.exists_cons_of_ne_nil hne
  intro hstart
  obtain ⟨x, text, rfl, -⟩ := (startsBits_iff hsplit).mp hstart
  obtain ⟨value, c, heq, -⟩ := exists_of_forall₂ hlabels _ (List.mem_cons_self ..)
  cases heq

theorem bitsLabel_eq (x : UInt8) (text : List UInt8) (bits : ℕ) :
    [92, 91, x] ++ text ++ [47] ++ decimal bits ++ [93] =
    92 :: 91 :: x :: (text ++ 47 :: (decimal bits ++ [93])) := by
  simp

theorem numbersFit_ipv6 {name addr addr' : List UInt8} (hne : numericLabels name ≠ [])
    (haddr : StartsBits name → bitstringAddr (((name.splitOn 46).headD []).drop 3) = some addr')
    (h : ReverseName name true addr) : NumbersFit name true := by
  rw [NumbersFit]
  cases h with
  | nibbles _ htree hcount hlabels =>
    obtain ⟨pen, last, hsplit, -⟩ := htree
    rw [numericLabels_eq hsplit] at hne ⊢
    rw [if_neg (not_startsBits_of_nibbles hsplit hne hlabels)]
    exact hcount
  | @bitstring x text values bits _ _ htree hx hbits hdigits hcount hrest =>
    obtain ⟨pen, last, hsplit, -⟩ := htree
    have htext := bitsLabel_eq x text bits
    have hstart : StartsBits name := (startsBits_iff hsplit).mpr ⟨x, _, htext, hx⟩
    -- the function wants 32 digits
    have hlength : values.length = 32 := by
      have haddr := haddr hstart
      rw [hsplit, List.cons_append, List.headD_cons, htext] at haddr
      change bitstringAddr (text ++ 47 :: (decimal bits ++ [93])) = _ at haddr
      rw [bitstringAddr, leadingDigits_append _ hdigits (by omega)] at haddr
      dsimp only at haddr
      split_ifs at haddr with hgood
      exact hgood.2
    have hdrop : ([92, 91, x] ++ text ++ [47] ++ decimal bits ++ [93]).drop 35 =
      47 :: decimal bits ++ [93] := by
      have hcut : ([92, 91, x] ++ text).length = 35 := by simp [hdigits.length_eq, hlength]
      rw [List.append_assoc, List.append_assoc, ← hcut, List.drop_left]
      simp
    have hlast := lastDigit_eq x ([47] ++ decimal bits ++ [93]) hdigits hlength
    rw [if_pos hstart, numericLabels_eq hsplit]
    refine ⟨_, bits, rfl, by omega, hbits.2, hdrop, ?_⟩
    rw [hlength] at hrest
    rw [← List.append_assoc, ← List.append_assoc] at hlast
    rw [hlast]
    exact hrest

theorem reverseName_iff_numbersFit {v6 : Bool} (h : inArpaName2Addr name = some (v6, addr)) :
    ReverseName name v6 addr ↔ NumbersFit name v6 := by
  obtain ⟨hne, ⟨rfl, htree, haddr⟩ | ⟨rfl, ⟨top, htop, htree⟩, haddr⟩⟩ := inArpaName2Addr_cases h
  · exact ⟨numbersFit_ipv4, reverseName_ipv4 htree haddr⟩
  · refine ⟨numbersFit_ipv6 hne fun hstart ↦ (haddr.resolve_right fun hno ↦ hno.1 hstart).2,
      fun hfit ↦ ?_⟩
    rcases haddr with ⟨hstart, haddr⟩ | ⟨hstart, haddr⟩
    · exact reverseName_bitstring htop htree hstart haddr hfit
    · rw [NumbersFit, if_neg hstart] at hfit
      exact reverseName_nibbles htop htree haddr hfit

/-! ### Names with the same address -/

/-- The numbers in a name, from the first byte or half byte of the address on. -/
def numericPart (name : List UInt8) : Bool → List ℕ
  | false => ((numericLabels name).map decimalValue).reverse
  | true =>
    if StartsBits name then (leadingDigits 32 (((numericLabels name).headD []).drop 3)).1
    else ((numericLabels name).map fun label ↦ (xdigit (label.headD 0)).getD 0).reverse

def fullCount (v6 : Bool) : ℕ := if v6 then 32 else 4

def numberBytes (v6 : Bool) (values : List ℕ) :
    List UInt8 := if v6 then pairDigits values else values.map UInt8.ofNat

def numberBound (v6 : Bool) : ℕ := if v6 then 16 else 256

theorem map_eq_of_forall₂ {α β : Type*} {R : α → β → Prop} {f : α → β} (hf : ∀ x y, R x y → f x = y)
    {xs : List α} {ys : List β} (h : List.Forall₂ R xs ys) : xs.map f = ys := by
  induction h with
  | nil => rfl
  | cons hxy _ ih => rw [List.map_cons, hf _ _ hxy, ih]

theorem forall_of_forall₂ {α β : Type*} {R : α → β → Prop} {P : β → Prop} (hP : ∀ x y, R x y → P y)
    {xs : List α} {ys : List β} (h : List.Forall₂ R xs ys) : ∀ y ∈ ys, P y := by
  induction h with
  | nil => simp
  | cons hxy _ ih => exact List.forall_mem_cons.mpr ⟨hP _ _ hxy, ih⟩

theorem ReverseName.numericPart {v6 : Bool} (h : ReverseName name v6 addr)
    (hne : numericLabels name ≠ []) (hfull : (numericPart name v6).length = fullCount v6) :
    addr = numberBytes v6 (numericPart name v6) ∧ ∀ value ∈ numericPart name v6,
      value < numberBound v6 := by
  cases h with
  | @ipv4 labels values htree _ hlabels =>
    obtain ⟨pen, last, hsplit, -⟩ := htree
    have hpart : Dnsmasq.numericPart name false = values.reverse := by
      rw [Dnsmasq.numericPart, numericLabels_eq hsplit, map_eq_of_forall₂ (fun _ _ hlabel ↦
        hlabel.value_eq) hlabels]
    rw [hpart] at hfull ⊢
    rw [List.length_reverse] at hfull
    refine ⟨by rw [hfull]; simp [numberBytes, fullCount], fun value hmem ↦ ?_⟩
    exact forall_of_forall₂ (P := (· < 256)) (fun _ _ hlabel ↦ Nat.lt_succ_of_le hlabel.value_le)
      hlabels value (List.mem_reverse.mp hmem)
  | @nibbles labels values _ _ htree _ hlabels =>
    obtain ⟨pen, last, hsplit, -⟩ := htree
    have hstart := not_startsBits_of_nibbles hsplit (numericLabels_eq hsplit ▸ hne) hlabels
    have hdigit : ∀ label value, NibbleLabel label value →
      (xdigit (label.headD 0)).getD 0 = value := by
      rintro label value ⟨c, rfl, hc⟩
      rw [List.headD_cons, hc]
      rfl
    have hpart : Dnsmasq.numericPart name true = values.reverse := by
      rw [Dnsmasq.numericPart, if_neg hstart, numericLabels_eq hsplit,
        map_eq_of_forall₂ hdigit hlabels]
    rw [hpart] at hfull ⊢
    rw [List.length_reverse] at hfull
    refine ⟨by rw [hfull]; simp [numberBytes, fullCount], fun value hmem ↦ ?_⟩
    exact forall_of_forall₂ (P := (· < 16)) (fun _ _ ⟨_, _, hc⟩ ↦ xdigit_lt hc) hlabels value
      (List.mem_reverse.mp hmem)
  | @bitstring x text values bits _ _ htree hx hbits hdigits hcount _ =>
    obtain ⟨pen, last, hsplit, -⟩ := htree
    have hstart : StartsBits name :=
      (startsBits_iff hsplit).mpr ⟨x, _, bitsLabel_eq x text bits, hx⟩
    have hpart : Dnsmasq.numericPart name true = values := by
      rw [Dnsmasq.numericPart, if_pos hstart, numericLabels_eq hsplit, List.headD_cons,
        bitsLabel_eq]
      change (leadingDigits 32 (text ++ 47 :: (decimal bits ++ [93]))).1 = values
      rw [leadingDigits_append _ hdigits (by omega)]
    rw [hpart] at hfull ⊢
    refine ⟨by rw [hfull]; simp [numberBytes, fullCount], ?_⟩
    exact forall_of_forall₂ (P := (· < 16)) (fun _ _ ↦ xdigit_lt) hdigits

theorem pairDigits_injective (values : List ℕ) : ∀ values' :
    List ℕ, values.length = values'.length →
    values.length % 2 = 0 → (∀ value ∈ values, value < 16) → (∀ value ∈ values', value < 16) →
      pairDigits values = pairDigits values' → values = values' := by
  induction values using pairDigits.induct with
  | case1 high low values ih =>
    intro values' hlength heven hsmall hsmall' h
    match values' with
    | [] => simp at hlength
    | [_] => simp at hlength
    | high' :: low' :: values' =>
      obtain ⟨hhigh, hsmall⟩ := List.forall_mem_cons.mp hsmall
      obtain ⟨hlow, hsmall⟩ := List.forall_mem_cons.mp hsmall
      obtain ⟨hhigh', hsmall'⟩ := List.forall_mem_cons.mp hsmall'
      obtain ⟨hlow', hsmall'⟩ := List.forall_mem_cons.mp hsmall'
      rw [pairDigits, pairDigits, List.cons.injEq] at h
      have hbyte := congrArg UInt8.toNat h.1
      rw [UInt8.toNat_ofNat', UInt8.toNat_ofNat'] at hbyte
      simp only [List.length_cons] at hlength heven
      obtain rfl := ih values' (by omega) (by omega) hsmall hsmall' h.2
      have hpair : high = high' ∧ low = low' := by omega
      rw [hpair.1, hpair.2]
  | case2 values hshort =>
    intro values' hlength heven _ _ _
    match values, values' with
    | [], [] => rfl
    | [], _ :: _ => simp at hlength
    | [_], _ => simp at heven
    | _ :: _ :: _, _ => exact (hshort _ _ _ rfl).elim

theorem numberBytes_injective {v6 : Bool} {values values' : List ℕ}
    (hlength : values.length = fullCount v6) (hlength' : values'.length = fullCount v6)
    (hbound : ∀ value ∈ values, value < numberBound v6) (hbound' : ∀ value ∈ values',
      value < numberBound v6) (h : numberBytes v6 values = numberBytes v6 values') :
    values = values' := by
  cases v6 with
  | true =>
    exact pairDigits_injective values values' (hlength.trans hlength'.symm)
      (by rw [hlength]; rfl) hbound hbound' h
  | false =>
    have hvalues : ∀ {values : List ℕ}, (∀ value ∈ values, value < 256) →
        (values.map UInt8.ofNat).map UInt8.toNat = values := by
      intro values hbound
      rw [List.map_map]
      refine (List.map_congr_left fun value hmem ↦ ?_).trans (List.map_id _)
      exact (UInt8.toNat_ofNat' ..).trans (Nat.mod_eq_of_lt (hbound value hmem))
    have hmap := congrArg (List.map UInt8.toNat) h
    change (values.map UInt8.ofNat).map UInt8.toNat =
      (values'.map UInt8.ofNat).map UInt8.toNat at hmap
    rwa [hvalues hbound, hvalues hbound'] at hmap

/-- `in_arpa_name_2_addr` decodes a name to an address that it is a name of if the numbers in it are
those of an address. Names with such numbers and the same full address have the same numbers. -/
theorem reverseName_iff {name addr : List UInt8} {v6 : Bool}
    (h : inArpaName2Addr name = some (v6, addr)) : (ReverseName name v6 addr ↔ NumbersFit name v6) ∧
      ∀ name', inArpaName2Addr name' = some (v6, addr) → NumbersFit name v6 → NumbersFit name' v6 →
        (numericPart name v6).length = fullCount v6 → (numericPart name' v6).length = fullCount v6 →
          numericPart name v6 = numericPart name' v6 := by
  refine ⟨reverseName_iff_numbersFit h, fun name' h' hfit hfit' hfull hfull' ↦ ?_⟩
  obtain ⟨haddr, hbound⟩ :=
    ((reverseName_iff_numbersFit h).mpr hfit).numericPart (inArpaName2Addr_cases h).1 hfull
  obtain ⟨haddr', hbound'⟩ :=
    ((reverseName_iff_numbersFit h').mpr hfit').numericPart (inArpaName2Addr_cases h').1 hfull'
  exact numberBytes_injective hfull hfull' hbound hbound' (haddr.symm.trans haddr')

def reverseText : List UInt8 := "1.0.0.10.in-addr.arpa".toUTF8.toList

def reverseUpper : List UInt8 := "01.0.0.10.IN-ADDR.ARPA".toUTF8.toList

theorem reverseName_iff_reverseText :
    ReverseName reverseText false [10, 0, 0, 1] ∧
      numericPart reverseText false = numericPart reverseUpper false := by
  have h : inArpaName2Addr reverseText = some (false, [10, 0, 0, 1]) := by decide +kernel
  have hfit : NumbersFit reverseText false := by
    unfold NumbersFit
    decide +kernel
  have hupper : NumbersFit reverseUpper false := by
    unfold NumbersFit
    decide +kernel
  exact ⟨(reverseName_iff h).1.mpr hfit,
    (reverseName_iff h).2 reverseUpper
      (by decide +kernel) hfit hupper (by decide +kernel) (by decide +kernel)⟩

def overflowText : List UInt8 := "257.0.0.10.in-addr.arpa".toUTF8.toList

/-- The number 257 is stored as 1, so that two names with different numbers have the same address.
-/
theorem not_reverseName_overflowText :
    inArpaName2Addr overflowText = some (false, [10, 0, 0, 1]) ∧ inArpaName2Addr reverseText = some
      (false, [10, 0, 0, 1]) ∧ ¬ ReverseName overflowText false [10, 0, 0, 1] := by
  refine ⟨by decide +kernel, by decide +kernel, fun h ↦ ?_⟩
  have hmem : [50, 53, 55] ∈ numericLabels overflowText := by decide +kernel
  exact absurd ((numbersFit_ipv4 h).2 _ hmem).2 (by decide)

end CrossBreeder.Dnsmasq
