import CrossBreeder.Dnsmasq.CnameOptions

/-!
# TXT records of the configuration

A `--txt-record` is built in one pass over its text. The block for its strings is allocated
beforehand, and it is always large enough (`oneOptTxt_encodes`): every string that was filled up
took 255 characters of the text.
-/

namespace CrossBreeder.Dnsmasq

open Foundation

/-! ### The option -/

/-- `struct txt_record`, with the block that was allocated for its strings. -/
structure TxtRecord where
  name : List UInt8
  txt : List UInt8
  recordClass : ℕ
  len : UInt16

/-- The variables of the loop: the text that is left, the block, and the places of `p` and `cnt` in
it. -/
structure TxtState where
  rest : List UInt8
  block : List UInt8
  p : ℕ
  cnt : ℕ

/-- A byte is written in a block. -/
def pokeBlock (block : List UInt8) (place : ℕ) (value : UInt8) : Option (List UInt8) :=
  if place < block.length then some (block.set place value) else none

/-- A round of the loop over the text. Without a result it writes outside of the block. -/
def txtRound (s : TxtState) : Round TxtState (Option TxtState) := match s.rest with
  | [] => .ret (some s)
  | c :: rest =>
    if c = 44 ∨ s.block.getD s.cnt 0 = 255 then match pokeBlock s.block s.p 0 with
      | none => .ret none
      | some block => .again {
          rest := if c = 44 then rest else c :: rest, block := block, p := s.p + 1, cnt := s.p }
    else match pokeBlock s.block s.p (metaChars.getD c.toNat c) with
      | none => .ret none
      | some block => match pokeBlock block s.cnt (block.getD s.cnt 0 + 1) with
        | none => .ret none
        | some block => .again { rest := rest, block := block, p := s.p + 1, cnt := s.cnt }

def txtSize (text : List UInt8) : ℕ := text.length + (text.length / 255 + 1)

def buildTxt (block text : List UInt8) (rounds : ℕ) : Option TxtState :=
  (pokeBlock block 0 0).bind fun block ↦ (runRounds txtRound rounds ⟨text, block, 1, 0⟩).join

def splitTxt (arg : List UInt8) : List UInt8 × List UInt8 := (splitChr arg 44).getD (arg, [])

/-- The part of `one_opt` for a `--txt-record`, where memory has anything in it. -/
def oneOptTxt (junk : ℕ → UInt8) (records : List TxtRecord) (arg : List UInt8) (rounds : ℕ) :
    Option (Except String (List TxtRecord)) :=
  match canonicaliseOpt (splitTxt arg).1 with
  | none => some (.error "bad TXT record")
  | some name =>
    (buildTxt ((List.range (txtSize (splitTxt arg).2)).map junk) (splitTxt arg).2 rounds).map
      fun s ↦
      .ok (⟨name, s.block, classIn, UInt16.ofNat s.p⟩ :: records)

/-! ### Strings -/

def encodeStrings (strings : List (List UInt8)) : List UInt8 :=
  (strings.map fun string ↦ UInt8.ofNat string.length :: string).flatten

theorem encodeStrings_append (first second : List (List UInt8)) :
    encodeStrings (first ++ second) = encodeStrings first ++ encodeStrings second := by
  unfold encodeStrings
  rw [List.map_append, List.flatten_append]

theorem encodeStrings_singleton (string : List UInt8) :
    encodeStrings [string] = UInt8.ofNat string.length :: string := by
  simp [encodeStrings]

/-- What is in the block while a text is read: strings that are done and the one that grows. -/
structure TxtInv (text : List UInt8) (s : TxtState) (taken : List UInt8) (done : List (List UInt8))
    (string : List UInt8) (full : ℕ) : Prop where
  text_eq : taken ++ s.rest = text
  size : s.block.length = txtSize text
  cnt_eq : s.cnt = (encodeStrings done).length
  p_eq : s.p = s.cnt + 1 + string.length
  written : s.block.take s.p = encodeStrings (done ++ [string])
  short : ∀ other ∈ done, other.length ≤ 255
  string_short : string.length ≤ 255
  content : (done ++ [string]).flatten = unhideMetas (taken.filter (· ≠ 44))
  place : s.p = 1 + taken.length + full
  filled : 255 * full + string.length ≤ taken.length

/-! ### One round -/

theorem take_set_last {block : List UInt8} {p : ℕ} (h : p < block.length) (value : UInt8) :
    (block.set p value).take (p + 1) = block.take p ++ [value] := by
  rw [List.take_add_one, List.take_set_of_le le_rfl, List.getElem?_set_self h]
  rfl

variable {rest : List UInt8}

namespace TxtInv

variable {text taken : List UInt8} {s : TxtState} {done : List (List UInt8)} {string : List UInt8}
    {full : ℕ}

theorem room (h : TxtInv text s taken done string full) {c : UInt8} (hrest : s.rest = c :: rest) :
    s.p < s.block.length := by
  have hlength := congrArg List.length h.text_eq
  rw [hrest, List.length_append, List.length_cons] at hlength
  have hfilled := h.filled
  have hplace := h.place
  rw [h.size, txtSize]
  omega

theorem count (h : TxtInv text s taken done string full) :
    s.block.getD s.cnt 0 = UInt8.ofNat string.length := by
  have hp := h.p_eq
  have htake : (s.block.take s.p)[s.cnt]? = s.block[s.cnt]? := List.getElem?_take_of_lt (by omega)
  rw [h.written, encodeStrings_append, encodeStrings_singleton, h.cnt_eq,
    List.getElem?_append_right le_rfl, Nat.sub_self, List.getElem?_cons_zero, ← h.cnt_eq] at htake
  rw [List.getD_eq_getElem?_getD, ← htake]
  rfl

theorem count_eq_iff (h : TxtInv text s taken done string full) :
    s.block.getD s.cnt 0 = 255 ↔ string.length = 255 := by
  rw [h.count]
  have hshort := h.string_short
  constructor
  · intro heq
    have hnat := congrArg UInt8.toNat heq
    rw [UInt8.toNat_ofNat'] at hnat
    have hlast : (255 : UInt8).toNat = 255 := rfl
    omega
  · intro heq
    rw [heq]
    rfl

theorem open_string (h : TxtInv text s taken done string full) {taken' rest : List UInt8}
    {full' : ℕ} (hroom : s.p < s.block.length) (htext : taken' ++ rest = text)
    (hcontent : taken'.filter (· ≠ 44) = taken.filter (· ≠ 44))
    (hplace : taken'.length + full' = taken.length + full + 1)
    (hfilled : 255 * full' ≤ taken'.length) :
    TxtInv text { rest := rest, block := s.block.set s.p 0, p := s.p + 1, cnt := s.p } taken'
    (done ++ [string]) []
      full' where
  text_eq := htext
  size := List.length_set.trans h.size
  cnt_eq := by
    have hlength := congrArg List.length h.written
    rwa [List.length_take, Nat.min_eq_left hroom.le] at hlength
  p_eq := rfl
  written := by
    rw [take_set_last hroom, h.written, encodeStrings_append (done ++ [string]),
      encodeStrings_singleton]
    rfl
  short := by
    intro other hother
    rcases List.mem_append.mp hother with hold | hnew
    · exact h.short other hold
    · rw [List.mem_singleton.mp hnew]
      exact h.string_short
  string_short := Nat.zero_le _
  content := by
    rw [hcontent, ← h.content, List.flatten_append]
    simp
  place := by
    have hold := h.place
    dsimp only
    omega
  filled := hfilled

theorem put_char (h : TxtInv text s taken done string full) {c : UInt8} (hrest : s.rest = c :: rest)
    (hc : c ≠ 44) (hshort : string.length ≠ 255) :
    TxtInv text
      { rest := rest
        block :=
          (s.block.set s.p (metaChars.getD c.toNat c)).set s.cnt (UInt8.ofNat string.length + 1)
        p := s.p + 1, cnt := s.cnt }
      (taken ++ [c]) done (string ++ [metaChars.getD c.toNat c]) full where
  text_eq := by
    rw [List.append_assoc, List.singleton_append, ← hrest]
    exact h.text_eq
  size := List.length_set.trans (List.length_set.trans h.size)
  cnt_eq := h.cnt_eq
  p_eq := by
    rw [List.length_append, List.length_singleton, ← Nat.add_assoc, ← h.p_eq]
  written := by
    have hcount : UInt8.ofNat string.length + 1 = UInt8.ofNat (string.length + 1) :=
      (UInt8.ofNat_add _ _).symm
    rw [List.take_set, take_set_last (h.room hrest), h.written, encodeStrings_append,
      encodeStrings_append,
      encodeStrings_singleton, encodeStrings_singleton, h.cnt_eq, List.append_assoc,
        List.set_append_right _ _ le_rfl,
      Nat.sub_self, List.cons_append, List.set_cons_zero, hcount, List.length_append,
        List.length_singleton]
  short := h.short
  string_short := by
    have hold := h.string_short
    rw [List.length_append, List.length_singleton]
    omega
  content := by
    have hkept : (taken ++ [c]).filter (· ≠ 44) = taken.filter (· ≠ 44) ++ [c] := by
      rw [List.filter_append]
      simp [hc]
    rw [hkept, unhideMetas, List.map_append, ← unhideMetas, ← h.content]
    simp
  place := by
    have hold := h.place
    rw [List.length_append, List.length_singleton]
    dsimp only
    omega
  filled := by
    have hold := h.filled
    rw [List.length_append, List.length_append, List.length_singleton, List.length_singleton]
    omega

theorem round (h : TxtInv text s taken done string full) {c : UInt8} (hrest : s.rest = c :: rest) :
    ∃ t taken' done' string' full', txtRound s = .again t ∧
      TxtInv text t taken' done' string' full' := by
  have hroom := h.room hrest
  have hpoke : ∀ value, pokeBlock s.block s.p value = some (s.block.set s.p value) :=
    fun value ↦ if_pos hroom
  have htext : taken ++ c :: rest = text := hrest ▸ h.text_eq
  unfold txtRound
  rw [hrest]
  dsimp only
  by_cases hc : c = 44
  · rw [if_pos (.inl hc), hpoke]
    have hold := h.filled
    refine ⟨_, taken ++ [c], done ++ [string], [], full, rfl, ?_⟩
    rw [if_pos hc]
    refine h.open_string hroom ?_ ?_ ?_ ?_
    · rw [List.append_assoc]
      exact htext
    · rw [List.filter_append]
      simp [hc]
    · rw [List.length_append, List.length_singleton]
      omega
    · rw [List.length_append]
      omega
  · by_cases hfull : string.length = 255
    · rw [if_pos (.inr (h.count_eq_iff.mpr hfull)), hpoke]
      have hold := h.filled
      refine ⟨_, taken, done ++ [string], [], full + 1, rfl, ?_⟩
      rw [if_neg hc]
      exact h.open_string hroom htext rfl (by omega) (by omega)
    · have hcnt : s.cnt < s.p := by
        have hp := h.p_eq
        omega
      have hread : (s.block.set s.p (metaChars.getD c.toNat c)).getD s.cnt 0 =
        UInt8.ofNat string.length := by
        rw [List.getD_eq_getElem?_getD,
          List.getElem?_set_ne (by omega), ← List.getD_eq_getElem?_getD]
        exact h.count
      have hpokeCount : ∀ value, pokeBlock (s.block.set s.p (metaChars.getD c.toNat c)) s.cnt
        value =
          some ((s.block.set s.p (metaChars.getD c.toNat c)).set s.cnt value) := fun value ↦
        if_pos (by rw [List.length_set]; omega)
      rw [if_neg (not_or.mpr ⟨hc, fun heq ↦ hfull (h.count_eq_iff.mp heq)⟩), hpoke]
      dsimp only
      rw [hpokeCount, hread]
      exact ⟨_, _, _, _, _, rfl, h.put_char hrest hc hfull⟩

end TxtInv

/-! ### The whole option -/

/-- What is left of a text, where a full string takes one round more. -/
def TxtState.size (s : TxtState) : ℕ := 2 * s.rest.length + if s.block.getD s.cnt 0 =
    255 then 1 else 0

theorem size_txtRound {s t : TxtState} (hround : txtRound s = .again t) : t.size < s.size := by
  unfold txtRound at hround
  cases hrest : s.rest with
  | nil =>
    rw [hrest] at hround
    cases hround
  | cons c rest =>
    rw [hrest] at hround
    dsimp only at hround
    have hflag : ∀ r : TxtState, r.size ≤ 2 * r.rest.length + 1 := by
      intro r
      unfold TxtState.size
      split_ifs <;> omega
    have hsize : s.size = 2 * rest.length + 2 + if s.block.getD s.cnt 0 = 255 then 1 else 0 := by
      unfold TxtState.size
      rw [hrest, List.length_cons]
      omega
    split_ifs at hround with hopen hcomma
    · cases hpoke : pokeBlock s.block s.p 0 with
      | none =>
        rw [hpoke] at hround
        cases hround
      | some block =>
        rw [hpoke] at hround
        obtain rfl := Round.again.inj hround
        have hnext := hflag { rest := rest, block := block, p := s.p + 1, cnt := s.p }
        dsimp only at hnext
        omega
    · cases hpoke : pokeBlock s.block s.p 0 with
      | none =>
        rw [hpoke] at hround
        cases hround
      | some block =>
        rw [hpoke] at hround
        obtain rfl := Round.again.inj hround
        rw [if_pos (hopen.resolve_left hcomma)] at hsize
        have hzero : block.getD s.p 0 = 0 := by
          unfold pokeBlock at hpoke
          split_ifs at hpoke with hroom
          rw [← Option.some.inj hpoke, List.getD_eq_getElem?_getD, List.getElem?_set_self hroom]
          rfl
        unfold TxtState.size at hsize ⊢
        rw [hzero, List.length_cons, hsize, if_neg (by decide)]
        omega
    · cases hpoke : pokeBlock s.block s.p (metaChars.getD c.toNat c) with
      | none =>
        rw [hpoke] at hround
        cases hround
      | some block =>
        rw [hpoke] at hround
        dsimp only at hround
        cases hcount : pokeBlock block s.cnt (block.getD s.cnt 0 + 1) with
        | none =>
          rw [hcount] at hround
          cases hround
        | some last =>
          rw [hcount] at hround
          obtain rfl := Round.again.inj hround
          have hnext := hflag { rest := rest, block := last, p := s.p + 1, cnt := s.cnt }
          dsimp only at hnext
          omega

structure TxtBuilt (text : List UInt8) (s : TxtState) : Prop where
  strings : ∃ strings : List (List UInt8), s.block.take s.p = encodeStrings strings ∧
    (∀ string ∈ strings, string.length ≤ 255) ∧ strings.flatten = unhideMetas (text.filter (· ≠ 44))
  size : s.block.length = txtSize text
  fits : s.p ≤ s.block.length

theorem TxtInv.built {text taken : List UInt8} {s : TxtState} {done : List (List UInt8)}
    {string : List UInt8} {full : ℕ} (h : TxtInv text s taken done string full)
    (hrest : s.rest = []) : TxtBuilt text s where
  strings := by
    have htaken : taken = text := by
      rw [← h.text_eq, hrest, List.append_nil]
    refine ⟨done ++ [string], h.written, ?_, htaken ▸ h.content⟩
    intro other hother
    rcases List.mem_append.mp hother with hold | hnew
    · exact h.short other hold
    · rw [List.mem_singleton.mp hnew]
      exact h.string_short
  size := h.size
  fits := by
    have hlength := congrArg List.length h.text_eq
    rw [hrest, List.append_nil] at hlength
    have hfilled := h.filled
    have hplace := h.place
    rw [h.size, txtSize]
    omega

theorem buildTxt_spec {block text : List UInt8} (hblock : block.length = txtSize text) :
    ∃ rounds s, buildTxt block text rounds = some s ∧ TxtBuilt text s := by
  have hroom : 0 < block.length := by
    rw [hblock, txtSize]
    omega
  have hstart : TxtInv text ⟨text, block.set 0 0, 1, 0⟩ [] [] [] 0 := by
    refine ⟨rfl, List.length_set.trans hblock, rfl, rfl, ?_,
      by simp, Nat.zero_le _, rfl, rfl, le_rfl⟩
    exact take_set_last hroom 0
  obtain ⟨result, hrun⟩ := exists_runRounds TxtState.size (fun _ _ ↦ size_txtRound) _
    (Nat.lt_succ_self (TxtState.size ⟨text, block.set 0 0, 1, 0⟩))
  have hpost : ∃ s, result = some s ∧ TxtBuilt text s := by
    refine (returns_of_runRounds _ hrun).invariant
      (fun s ↦ ∃ taken done string full, TxtInv text s taken done string full)
      (fun result ↦ ∃ s, result = some s ∧ TxtBuilt text s) ?_ ?_ ⟨[], [], [], 0, hstart⟩
    · rintro s value ⟨taken, done, string, full, hinv⟩ hbody
      cases hrest : s.rest with
      | nil =>
        have hend : txtRound s = .ret (some s) := by
          unfold txtRound
          rw [hrest]
        obtain rfl := Round.ret.inj (hend.symm.trans hbody)
        exact ⟨s, rfl, hinv.built hrest⟩
      | cons c rest =>
        obtain ⟨t, -, -, -, -, hagain, -⟩ := hinv.round hrest
        cases hagain.symm.trans hbody
    · rintro s t ⟨taken, done, string, full, hinv⟩ hbody
      cases hrest : s.rest with
      | nil =>
        have hend : txtRound s = .ret (some s) := by
          unfold txtRound
          rw [hrest]
        cases hend.symm.trans hbody
      | cons c rest =>
        obtain ⟨next, taken', done', string', full', hagain, hnext⟩ := hinv.round hrest
        obtain rfl := Round.again.inj (hagain.symm.trans hbody)
        exact ⟨taken', done', string', full', hnext⟩
  obtain ⟨s, rfl, hbuilt⟩ := hpost
  refine ⟨(TxtState.size ⟨text, block.set 0 0, 1, 0⟩).succ, s, ?_, hbuilt⟩
  unfold buildTxt
  rw [pokeBlock, if_pos hroom, Option.bind_some, hrun]
  rfl

theorem length_splitTxt_le (arg : List UInt8) : (splitTxt arg).2.length ≤ arg.length := by
  unfold splitTxt splitChr
  cases hcomma : arg.dropWhile (· ≠ 44) with
  | nil => exact Nat.zero_le _
  | cons c rest =>
    have hlength := (List.dropWhile_sublist (l := arg) (· ≠ 44)).length_le
    rw [hcomma, List.length_cons] at hlength
    have hspaces := (List.dropWhile_sublist (l := rest) (· = 32)).length_le
    dsimp only [Option.getD_some]
    omega

/-- For every option with a name, the strings are built inside the block. They cover the length of
the record, have at most 255 bytes each, and are the text without its commas. -/
theorem oneOptTxt_encodes (junk : ℕ → UInt8) (records : List TxtRecord) {arg name : List UInt8}
    (harg : arg.length < maxDname) (hname : canonicaliseOpt (splitTxt arg).1 = some name) :
    ∃ rounds record, oneOptTxt junk records arg rounds = some (.ok (record :: records)) ∧
      record.txt.length = (splitTxt arg).2.length + ((splitTxt arg).2.length / 255 + 1) ∧
      record.len.toNat ≤ record.txt.length ∧
      ∃ strings : List (List UInt8), record.txt.take record.len.toNat = encodeStrings strings ∧
        (∀ string ∈ strings, string.length ≤ 255) ∧
        strings.flatten = unhideMetas ((splitTxt arg).2.filter (· ≠ 44)) := by
  obtain ⟨rounds, s, hbuild, hbuilt⟩ := buildTxt_spec
    (show ((List.range (txtSize (splitTxt arg).2)).map junk).length = txtSize (splitTxt arg).2 by
      rw [List.length_map, List.length_range])
  have hlen : (UInt16.ofNat s.p).toNat = s.p := by
    have hfits := hbuilt.fits
    have htext := length_splitTxt_le arg
    rw [hbuilt.size, txtSize] at hfits
    unfold maxDname at harg
    rw [UInt16.toNat_ofNat']
    exact Nat.mod_eq_of_lt (by omega)
  refine ⟨rounds, ⟨name, s.block, classIn, UInt16.ofNat s.p⟩, ?_, hbuilt.size, ?_, ?_⟩
  · unfold oneOptTxt
    rw [hname]
    rw [hbuild]
    rfl
  · exact hlen.trans_le hbuilt.fits
  · dsimp only
    rw [hlen]
    exact hbuilt.strings

/-- The name `a` with the strings `b` and `c`. -/
theorem oneOptTxt_encodes_two :
    ∃ rounds record, oneOptTxt (fun _ ↦ 170) [] [97, 44, 98, 44, 99] rounds = some (.ok [record]) ∧
      ∃ strings : List (List UInt8), record.txt.take record.len.toNat = encodeStrings strings ∧
        strings.flatten = [98, 99] := by
  obtain ⟨rounds, record, hrun, -, -, strings, htake, -, hflatten⟩ :=
    @oneOptTxt_encodes (fun _ ↦ 170) [] [97, 44, 98, 44, 99] [97] (by decide) (by decide)
  exact ⟨rounds, record, hrun, strings, htake, hflatten.trans (by decide)⟩

end CrossBreeder.Dnsmasq
