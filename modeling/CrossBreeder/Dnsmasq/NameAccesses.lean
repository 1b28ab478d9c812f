import CrossBreeder.Dnsmasq.NameReading

/-!
# The accesses of the name parser

`extract_name` with its variables, the memory of the name buffer, and a record of the bytes it reads
in the packet and writes in the buffer. It returns whatever the packet is, and it returns what
`extractName` and `matchName` return (`parseName_extractName`, `parseName_matchName`).

For a bitstring label the source reads the number of bits before it checks that there is one, and it
checks one byte too few for the digits. `nameSafe_iff` says that these are the only reads outside
the packet; `Overruns` is what the packet holds then.
-/

namespace CrossBreeder.Dnsmasq

open Foundation

/-! ### The function -/

/-- The variables of `extract_name`, the name buffer, and the positions read and written. -/
structure NameParse where
  pp : ℕ
  p : ℕ
  p1 : Option ℕ
  hops : ℕ
  cp : ℕ
  retvalue : ℕ
  name : ℕ → UInt8
  reads : List ℕ
  writes : List ℕ

namespace NameParse

/-- `*p++`. -/
def fetch (s : NameParse) : NameParse := { s with p := s.p + 1, reads := s.p :: s.reads }

/-- `*p`. -/
def look (s : NameParse) : NameParse := { s with reads := s.p :: s.reads }

/-- `*cp = byte`. -/
def store (byte : UInt8) (s : NameParse) : NameParse :=
  { s with name := Function.update s.name s.cp byte, writes := s.cp :: s.writes }

/-- `*cp++ = byte`. -/
def put (byte : UInt8) (s : NameParse) : NameParse :=
  { s with cp := s.cp + 1, name := Function.update s.name s.cp byte, writes := s.cp :: s.writes }

def putAll (bytes : List UInt8) (s : NameParse) :
    NameParse := bytes.foldl (fun s byte ↦ s.put byte) s

def jump (target : ℕ) (s : NameParse) : NameParse :=
  { s with p := target, p1 := some (s.p1.getD s.p), hops := s.hops + 1 }

def putDigit (packet : Packet) (s : NameParse) (j : ℕ) : NameParse :=
  if j % 2 = 0 then s.look.put (hexDigit (packet.byte s.p >>> 4))
  else s.fetch.put (hexDigit (packet.byte s.p &&& 0x0f))

/-- The text of a bitstring. `sprintf` writes a zero, which the dot replaces. -/
def putBits (packet : Packet) (count digs : ℕ) (s : NameParse) : NameParse :=
  (((List.range digs).foldl (putDigit packet) (s.putAll [92, 91, 120])).putAll
    (47 :: decimal count ++ [93]) |>.store 0 |>.put 46)

def copyLabel (packet : Packet) : ℕ → NameParse → Except NameParse NameParse
  | 0, s => .ok s
  | l + 1, s =>
    if labelChar (packet.getD s.p 0) then copyLabel packet l (s.look.fetch.put (packet.getD s.p 0))
      else .error s.look

/-- One character of a label is compared. -/
def compareChar (packet : Packet) (s : NameParse) : NameParse :=
  if s.name s.cp = 0 then { s.fetch with retvalue := 2 }
  else
    { s.fetch with
      cp := s.cp + 1
      retvalue := if toLower (s.name s.cp) ≠ toLower (packet.getD s.p 0) then 2 else s.retvalue }

def compareLabel (packet : Packet) : ℕ → NameParse → NameParse
  | 0, s => s
  | l + 1, s => compareLabel packet l (s.compareChar packet)

def compareDot (s : NameParse) : NameParse :=
  if s.name s.cp = 0 then s
  else { s with cp := s.cp + 1, retvalue := if s.name s.cp ≠ 46 then 2 else s.retvalue }

def finish (isExtract : Bool) (s : NameParse) : ℕ × NameParse :=
  let s := { s with pp := s.p1.getD s.p }
  if isExtract then (s.retvalue, { s with cp := s.cp - 1 }.store 0)
  else if s.name s.cp ≠ 0 then (2, s)
  else (s.retvalue, s)

end NameParse

/-- One round of the loop of `extract_name`, with what is returned. -/
def parseRound (packet : Packet) (plen : ℕ) (isExtract : Bool) (extrabytes : ℕ) (s : NameParse) :
    Round NameParse (ℕ × NameParse) :=
  if checkLen plen s.p 1 = false then .ret (0, s)
  else
    let l := packet.byte s.p
    let s := s.fetch
    if l = 0 then
      if checkLen plen s.p extrabytes = false then .ret (0, s) else .ret (s.finish isExtract)
    else if l &&& 0xc0 = 0xc0 then
      if checkLen plen s.p 1 = false then .ret (0, s)
      else
        let target := (l &&& 0x3f) <<< 8 ||| packet.byte s.p
        let s := s.fetch.jump target
        if 255 < s.hops then .ret (0, s) else .again s
    else if l &&& 0xc0 = 0x80 then .ret (0, s)
    else if l &&& 0xc0 = 0x40 then
      if l &&& 0x3f ≠ 1 ∨ isExtract = false then .ret (0, s)
      else
        let count := if packet.byte s.p = 0 then 256 else packet.byte s.p
        let s := s.fetch
        let digs := (count - 1) >>> 2 + 1
        if maxDname ≤ s.cp + digs + 9 ∨ checkLen plen s.p ((count - 1) >>> 3) = false then
          .ret (0, s)
        else .again (s.putBits packet count digs)
    else if maxDname ≤ s.cp + l + 1 ∨ checkLen plen s.p l = false then .ret (0, s)
    else if isExtract then
      match s.copyLabel packet l with
      | .error s => .ret (0, s)
      | .ok s => .again (s.put 46)
    else .again (s.compareLabel packet l).compareDot

/-- The variables of `extract_name` at the start. -/
def parseStart (p : ℕ) (isExtract : Bool) (name : ℕ → UInt8) : NameParse :=
  let s : NameParse := ⟨p, p, none, 0, 0, 1, name, [], []⟩
  if isExtract then s.store 0 else s

/-- `extract_name` with a bound on the rounds of its loop: what it returns and what it leaves. -/
def parseName (packet : Packet) (plen p : ℕ) (isExtract : Bool) (extrabytes : ℕ) (name : ℕ → UInt8)
    (rounds : ℕ) : Option (ℕ × NameParse) :=
  runRounds (parseRound packet plen isExtract extrabytes) rounds (parseStart p isExtract name)

/-- The labels and pointers from an offset on lead to a bitstring that runs over the end of the
packet: its number of bits or the last byte of its digits is behind the end. All that is in front of
it is in order, with the number of pointers and the length of the text so far. -/
inductive Overruns (packet : Packet) (plen : ℕ) : ℕ → ℕ → ℕ → Prop
  | count {p hops cp : ℕ} (hbits : packet.byte p = 65) (hlast : p + 1 = plen) :
    Overruns packet plen p hops cp
  | data {p hops cp : ℕ} (hbits : packet.byte p = 65) (hlast : p + 2 + (bitCount packet p - 1) / 8 =
    plen)
      (hroom : cp + digitCount (bitCount packet p) + 9 < maxDname) : Overruns packet plen p hops cp
  | pointer {p hops cp : ℕ} (hpointer : 192 ≤ packet.byte p) (hinside : p + 2 ≤ plen)
    (hhops : hops < 255)
      (hrest : Overruns packet plen (pointerTarget packet p) (hops + 1) cp) :
        Overruns packet plen p hops cp
  | chars {p hops cp : ℕ} (hlow : packet.byte p ≠ 0) (hhigh : packet.byte p < 64)
      (hinside : p + 1 + packet.byte p ≤ plen) (hroom : cp + packet.byte p + 1 < maxDname)
      (hall : (packet.slice (p + 1) (packet.byte p)).all labelChar = true)
      (hrest : Overruns packet plen (p + 1 + packet.byte p) hops (cp + packet.byte p + 1)) :
        Overruns packet plen p hops cp
  | bits {p hops cp : ℕ} (hbits : packet.byte p = 65) (hinside :
    p + 2 + (bitCount packet p - 1) / 8 < plen)
      (hroom : cp + digitCount (bitCount packet p) + 9 < maxDname)
      (hrest : Overruns packet plen (p + 2 + digitCount (bitCount packet p) / 2) hops
        (cp + (bitsText packet p).length)) :
      Overruns packet plen p hops cp

/-! ### Single accesses -/

namespace NameParse

def text (s : NameParse) : List UInt8 := (List.range s.cp).map s.name

/-- A part of the function passes `n` bytes of the packet, reads below `hi`, and writes some bytes
behind the name. -/
structure Moves (s s' : NameParse) (n hi : ℕ) (bytes : List UInt8) : Prop where
  pp : s'.pp = s.pp
  p1 : s'.p1 = s.p1
  hops : s'.hops = s.hops
  retvalue : s'.retvalue = s.retvalue
  p : s'.p = s.p + n
  cp : s'.cp = s.cp + bytes.length
  text : s'.text = s.text ++ bytes
  reads : ∀ k ∈ s'.reads, k ∈ s.reads ∨ k < hi
  kept : ∀ k ∈ s.reads, k ∈ s'.reads
  writes : ∀ k ∈ s'.writes, k ∈ s.writes ∨ k < s'.cp

variable {packet : Packet} {s s' s'' : NameParse} {n m hi : ℕ} {bytes more : List UInt8}

theorem Moves.refl (s : NameParse) (hi : ℕ) : Moves s s 0 hi [] :=
  ⟨rfl, rfl, rfl, rfl, rfl, rfl, by simp, fun _ ↦ Or.inl, fun _ ↦ id, fun _ ↦ Or.inl⟩

theorem Moves.trans (h : Moves s s' n hi bytes) (h' : Moves s' s'' m hi more) :
    Moves s s'' (n + m) hi (bytes ++ more) where
  pp := h'.pp.trans h.pp
  p1 := h'.p1.trans h.p1
  hops := h'.hops.trans h.hops
  retvalue := h'.retvalue.trans h.retvalue
  p := by rw [h'.p, h.p, Nat.add_assoc]
  cp := by rw [h'.cp, h.cp, List.length_append, Nat.add_assoc]
  text := by rw [h'.text, h.text, List.append_assoc]
  reads k hk := (h'.reads k hk).elim (h.reads k) Or.inr
  kept _ hk := h'.kept _ (h.kept _ hk)
  writes k hk := by
    have hcp := h'.cp
    rcases h'.writes k hk with hmem | hlt
    · exact (h.writes k hmem).imp id fun hlt ↦ by omega
    · exact Or.inr hlt

theorem Moves.mono (h : Moves s s' n hi bytes) (hi' : ℕ) (hle : hi ≤ hi') :
    Moves s s' n hi' bytes :=
  { h with reads := fun k hk ↦ (h.reads k hk).imp id fun hlt ↦ by omega }

theorem moves_fetch (hi : ℕ) (hhi : s.p < hi) : Moves s s.fetch 1 hi [] where
  pp := rfl
  p1 := rfl
  hops := rfl
  retvalue := rfl
  p := rfl
  cp := rfl
  text := (List.append_nil _).symm
  reads _ hk := (List.mem_cons.mp hk).elim (fun heq ↦ Or.inr (heq ▸ hhi)) Or.inl
  kept _ hk := List.mem_cons_of_mem _ hk
  writes _ := Or.inl

theorem moves_look (hi : ℕ) (hhi : s.p < hi) : Moves s s.look 0 hi [] :=
  { moves_fetch hi hhi with p := rfl }

theorem text_update (s : NameParse) (byte : UInt8) :
    (List.range (s.cp + 1)).map (Function.update s.name s.cp byte) = s.text ++ [byte] := by
  rw [List.range_succ, List.map_append, List.map_singleton, Function.update_self, NameParse.text]
  congr 1
  refine List.map_congr_left fun k hk ↦ Function.update_of_ne ?_ _ _
  rw [List.mem_range] at hk
  omega

theorem moves_put (s : NameParse) (hi : ℕ) (byte : UInt8) : Moves s (s.put byte) 0 hi [byte] where
  pp := rfl
  p1 := rfl
  hops := rfl
  retvalue := rfl
  p := rfl
  cp := rfl
  text := text_update s byte
  reads _ := Or.inl
  kept _ := id
  writes _ hk := (List.mem_cons.mp hk).elim (fun heq ↦ Or.inr (heq ▸ Nat.lt_succ_self s.cp)) Or.inl

theorem moves_store_put (s : NameParse) (hi : ℕ) (byte : UInt8) :
    Moves s ((s.store 0).put byte) 0 hi [byte] where
  pp := rfl
  p1 := rfl
  hops := rfl
  retvalue := rfl
  p := rfl
  cp := rfl
  text := by
    change (List.range (s.cp + 1)).map (Function.update (Function.update s.name s.cp 0) s.cp byte) =
      _
    rw [Function.update_idem]
    exact text_update s byte
  reads _ := Or.inl
  kept _ := id
  writes k hk := by
    rcases List.mem_cons.mp hk with rfl | hk
    · exact Or.inr (Nat.lt_succ_self s.cp)
    · exact (moves_put s hi 0).writes k hk

theorem moves_putAll (hi : ℕ) (bytes : List UInt8) : ∀ s :
    NameParse, Moves s (s.putAll bytes) 0 hi bytes := by
  induction bytes with
  | nil => exact fun s ↦ .refl s hi
  | cons byte bytes ih => exact fun s ↦ (moves_put s hi byte).trans (ih (s.put byte))

theorem slice_succ (packet : Packet) (p len : ℕ) :
    packet.slice p (len + 1) = packet.getD p 0 :: packet.slice (p + 1) len := by
  simp [Packet.slice, List.range_succ_eq_map, Function.comp_def, Nat.add_comm, Nat.add_left_comm]

theorem copyLabel_spec (packet : Packet) (l : ℕ) : ∀ s : NameParse,
    match s.copyLabel packet l with
    | .error s' => (packet.slice s.p l).all labelChar = false ∧
      (∀ k ∈ s'.reads, k ∈ s.reads ∨ k < s.p + l) ∧
        (∀ k ∈ s.reads, k ∈ s'.reads) ∧ s'.pp = s.pp ∧ ∀ k ∈ s'.writes, k ∈ s.writes ∨ k < s.cp + l
    | .ok s' => (packet.slice s.p l).all labelChar =
      true ∧ Moves s s' l (s.p + l) (packet.slice s.p l) := by
  induction l with
  | zero => exact fun s ↦ ⟨rfl, .refl s _⟩
  | succ l ih =>
    intro s
    rw [copyLabel, slice_succ, List.all_cons]
    by_cases hchar : labelChar (packet.getD s.p 0) = true
    · rw [if_pos hchar, hchar, Bool.true_and]
      have hfirst : Moves s (s.look.fetch.put (packet.getD s.p 0)) 1 (s.p + (l + 1))
        [packet.getD s.p 0] :=
        ((moves_look _
          (by omega)).trans (moves_fetch _ (by show s.p < _; omega))).trans (moves_put _ _ _)
      have hp : (s.look.fetch.put (packet.getD s.p 0)).p = s.p + 1 := rfl
      have hspec := ih (s.look.fetch.put (packet.getD s.p 0))
      cases hcopy : (s.look.fetch.put (packet.getD s.p 0)).copyLabel packet l with
      | error s' =>
        rw [hcopy] at hspec
        obtain ⟨hall, hreads, hkept, hpp, hwrites⟩ := hspec
        refine ⟨hall, fun k hk ↦ ?_, fun k hk ↦ hkept k (hfirst.kept k hk), hpp, fun k hk ↦ ?_⟩
        · rcases hreads k hk with hmem | hlt
          · exact hfirst.reads k hmem
          · exact Or.inr (by rw [hp] at hlt; omega)
        · rcases hwrites k hk with hmem | hlt
          · exact (hfirst.writes k hmem).imp id fun hlt ↦ by
              rw [hfirst.cp] at hlt; simp only [List.length_singleton] at hlt; omega
          · exact Or.inr (by rw [hfirst.cp] at hlt; simp only [List.length_singleton] at hlt; omega)
      | ok s' =>
        rw [hcopy] at hspec
        obtain ⟨hall, hmoves⟩ := hspec
        refine ⟨hall, ?_⟩
        have hrest := hmoves.mono (s.p + (l + 1)) (by rw [hp]; omega)
        rw [hp] at hrest
        simpa only [List.singleton_append, Nat.add_comm] using hfirst.trans hrest
    · rw [if_neg hchar]
      rw [Bool.not_eq_true] at hchar
      rw [hchar, Bool.false_and]
      have hlook : Moves s s.look 0 (s.p + (l + 1)) [] := moves_look _ (by omega)
      exact ⟨rfl, hlook.reads, hlook.kept, rfl, fun _ ↦ Or.inl⟩

theorem putDigit_spec (packet : Packet) (s : NameParse) (j : ℕ) :
    Moves s (s.putDigit packet j) (j % 2) (s.p + 1)
        [hexDigit (if j % 2 = 0 then packet.byte s.p / 16 else packet.byte s.p % 16)] ∧
        s.p ∈ (s.putDigit packet j).reads := by
  have hlow : packet.byte s.p &&& 0x0f = packet.byte s.p % 16 := Nat.and_two_pow_sub_one_eq_mod _ 4
  rw [putDigit]
  by_cases heven : j % 2 = 0
  · rw [if_pos heven, if_pos heven, heven, Nat.shiftRight_eq_div_pow]
    exact ⟨(moves_look _ (Nat.lt_succ_self s.p)).trans (moves_put _ _ _), List.mem_cons_self ..⟩
  · rw [if_neg heven, if_neg heven, Nat.mod_two_ne_zero.mp heven, hlow]
    exact ⟨(moves_fetch _ (Nat.lt_succ_self s.p)).trans (moves_put _ _ _), List.mem_cons_self ..⟩

theorem putDigits_spec (packet : Packet) (s : NameParse) (digs : ℕ) :
    Moves s ((List.range digs).foldl (putDigit packet) s) (digs / 2) (s.p + (digs + 1) / 2)
        (bitstringDigits packet s.p digs) ∧
      (0 < digs → s.p + (digs - 1) / 2 ∈ ((List.range digs).foldl (putDigit packet) s).reads) := by
  induction digs with
  | zero => exact ⟨.refl s _, fun h ↦ absurd h (Nat.lt_irrefl 0)⟩
  | succ digs ih =>
    obtain ⟨hmoves, -⟩ := ih
    obtain ⟨hdigit, hread⟩ :=
      putDigit_spec packet ((List.range digs).foldl (putDigit packet) s) digs
    rw [hmoves.p] at hdigit hread
    rw [List.range_succ, List.foldl_append, List.foldl_cons, List.foldl_nil]
    refine ⟨?_, fun _ ↦ hread⟩
    have hall := (hmoves.mono (s.p + (digs + 1 + 1) / 2) (by omega)).trans
      (hdigit.mono (s.p + (digs + 1 + 1) / 2) (by omega))
    have hhalf : digs / 2 + digs % 2 = (digs + 1) / 2 := by omega
    have htext : bitstringDigits packet s.p (digs + 1) = bitstringDigits packet s.p digs ++
        [hexDigit (if digs % 2 = 0 then packet.byte (s.p + digs / 2) / 16
          else packet.byte (s.p + digs / 2) % 16)] := by
      simp [bitstringDigits, List.range_succ]
    rw [htext, ← hhalf]
    exact hall

theorem putBits_spec (packet : Packet) (s : NameParse) (count digs : ℕ) (hdigs : 0 < digs) :
    Moves s (s.putBits packet count digs) (digs / 2) (s.p + (digs + 1) / 2)
      (bitstringText packet s.p count digs) ∧
      s.p + (digs - 1) / 2 ∈ (s.putBits packet count digs).reads := by
  have hopen := moves_putAll (s.p + (digs + 1) / 2) [92, 91, 120] s
  obtain ⟨hdigits, hread⟩ := putDigits_spec packet (s.putAll [92, 91, 120]) digs
  have hp : (s.putAll [92, 91, 120]).p = s.p := rfl
  rw [hp] at hdigits hread
  have hclose := moves_putAll (s.p + (digs + 1) / 2) (47 :: decimal count ++ [93])
    ((List.range digs).foldl (putDigit packet) (s.putAll [92, 91, 120]))
  have hdot :=
    moves_store_put (((List.range digs).foldl (putDigit packet) (s.putAll [92, 91, 120])).putAll
    (47 :: decimal count ++ [93])) (s.p + (digs + 1) / 2) 46
  have htail := hclose.trans hdot
  have hall := (hopen.trans hdigits).trans htail
  have htext : bitstringText packet s.p count digs =
      ([92, 91, 120] ++ bitstringDigits packet s.p digs) ++
        ((47 :: decimal count ++ [93]) ++ [46]) := by
    simp [bitstringText]
  rw [Nat.zero_add, Nat.add_zero, ← htext] at hall
  exact ⟨hall, htail.kept _ (hread hdigs)⟩

theorem compareChar_spec (packet : Packet) (s : NameParse) :
    (s.compareChar packet).pp = s.pp ∧ (s.compareChar packet).p1 = s.p1 ∧
      (s.compareChar packet).hops = s.hops ∧
      (s.compareChar packet).p = s.p + 1 ∧ (s.compareChar packet).name = s.name ∧
      (s.compareChar packet).reads = s.p :: s.reads ∧ (s.compareChar packet).writes = s.writes := by
  rw [compareChar]
  split_ifs <;> exact ⟨rfl, rfl, rfl, rfl, rfl, rfl, rfl⟩

theorem compareLabel_spec (packet : Packet) (l : ℕ) : ∀ s : NameParse,
    (s.compareLabel packet l).pp = s.pp ∧ (s.compareLabel packet l).p1 = s.p1 ∧
      (s.compareLabel packet l).hops = s.hops ∧ (s.compareLabel packet l).p = s.p + l ∧
      (s.compareLabel packet l).name = s.name ∧
      (∀ k ∈ (s.compareLabel packet l).reads, k ∈ s.reads ∨ k < s.p + l) ∧
      (s.compareLabel packet l).writes = s.writes := by
  induction l with
  | zero => exact fun s ↦ ⟨rfl, rfl, rfl, rfl, rfl, fun _ ↦ Or.inl, rfl⟩
  | succ l ih =>
    intro s
    obtain ⟨hpp, hp1, hhops, hp, hname, hreads, hwrites⟩ := compareChar_spec packet s
    obtain ⟨hpp', hp1', hhops', hp', hname', hreads', hwrites'⟩ := ih (s.compareChar packet)
    rw [compareLabel]
    refine ⟨hpp'.trans hpp, hp1'.trans hp1, hhops'.trans hhops,
      by omega, hname'.trans hname, fun k hk ↦ ?_, hwrites'.trans hwrites⟩
    rcases hreads' k hk with hmem | hlt
    · rw [hreads] at hmem
      rcases List.mem_cons.mp hmem with rfl | hmem
      · exact Or.inr (by omega)
      · exact Or.inl hmem
    · exact Or.inr (by omega)

theorem kept_compareLabel (packet : Packet) (l : ℕ) : ∀ s :
    NameParse, ∀ k ∈ s.reads, k ∈ (s.compareLabel packet l).reads := by
  induction l with
  | zero => exact fun _ _ hk ↦ hk
  | succ l ih =>
    intro s k hk
    refine ih _ k ?_
    rw [(compareChar_spec packet s).2.2.2.2.2.1]
    exact List.mem_cons_of_mem _ hk

theorem compareDot_spec (s : NameParse) :
    s.compareDot.pp = s.pp ∧ s.compareDot.p1 = s.p1 ∧ s.compareDot.hops = s.hops ∧
      s.compareDot.p = s.p ∧
      s.compareDot.name = s.name ∧ s.compareDot.reads = s.reads ∧
      s.compareDot.writes = s.writes := by
  rw [compareDot]
  split_ifs <;> exact ⟨rfl, rfl, rfl, rfl, rfl, rfl, rfl⟩

end NameParse

/-! ### One round -/

section Rounds

variable {packet : Packet} {plen extrabytes : ℕ} {isExtract : Bool} {s : NameParse}

theorem parseRound_outside (h : plen ≤ s.p) : parseRound packet plen isExtract extrabytes s =
    .ret (0, s) := by
  rw [parseRound, if_pos ((checkLen_eq_false _ _ _).mpr (by omega))]

theorem parseRound_root (h : s.p < plen) (hroot : packet.byte s.p = 0) :
    parseRound packet plen isExtract extrabytes s =
      if plen < s.p + 1 + extrabytes then .ret (0, s.fetch) else .ret
      (s.fetch.finish isExtract) := by
  rw [parseRound, if_neg (by rw [checkLen_eq_false]; omega)]
  simp only [hroot, if_true, checkLen_eq_false]
  rfl

theorem pointerTarget_eq (packet : Packet) (p : ℕ) :
    (packet.byte p &&& 0x3f) <<< 8 ||| packet.byte (p + 1) = pointerTarget packet p := by
  rw [← Nat.shiftLeft_add_eq_or_of_lt (byte_lt packet (p + 1)), Nat.shiftLeft_eq, pointerTarget]

theorem parseRound_pointer (h : s.p < plen) (hpointer : 192 ≤ packet.byte s.p) :
    parseRound packet plen isExtract extrabytes s =
      if plen < s.p + 2 then .ret (0, s.fetch)
      else if 255 < s.hops + 1 then .ret (0, s.fetch.fetch.jump (pointerTarget packet s.p))
      else .again (s.fetch.fetch.jump (pointerTarget packet s.p)) := by
  rw [parseRound, if_neg (by rw [checkLen_eq_false]; omega)]
  simp only [(labelType_eq_pointer packet s.p).mpr hpointer, if_true, checkLen_eq_false]
  rw [if_neg (by omega)]
  have htarget : (packet.byte s.p &&& 0x3f) <<< 8 ||| packet.byte s.fetch.p =
    pointerTarget packet s.p :=
    pointerTarget_eq packet s.p
  rw [htarget]
  rfl

theorem parseRound_reserved (h : s.p < plen) (hlow : 128 ≤ packet.byte s.p)
    (hhigh : packet.byte s.p < 192) :
    parseRound packet plen isExtract extrabytes s = .ret (0, s.fetch) := by
  rw [parseRound, if_neg (by rw [checkLen_eq_false]; omega)]
  simp only [labelType_eq_pointer]
  rw [if_neg (by omega), if_neg (by omega), if_pos ((labelType_eq_reserved packet s.p).mpr ⟨hlow,
    hhigh⟩)]

theorem parseRound_bits (h : s.p < plen) (hlow : 64 ≤ packet.byte s.p)
    (hhigh : packet.byte s.p < 128) : parseRound packet plen isExtract extrabytes s =
      if packet.byte s.p ≠ 65 ∨ isExtract = false then .ret (0, s.fetch)
      else if maxDname ≤ s.cp + digitCount (bitCount packet s.p) + 9 ∨
          plen < s.p + 2 + (bitCount packet s.p - 1) / 8 then .ret (0, s.fetch.fetch)
      else .again
      (s.fetch.fetch.putBits packet (bitCount packet s.p) (digitCount (bitCount packet s.p))) := by
  have hcount : (if packet.byte s.fetch.p = 0 then 256 else packet.byte s.fetch.p) =
    bitCount packet s.p := rfl
  have hdigs : (bitCount packet s.p - 1) >>> 2 + 1 = digitCount (bitCount packet s.p) := by
    rw [Nat.shiftRight_eq_div_pow, digitCount]
  have hbytes : (bitCount packet s.p - 1) >>> 3 = (bitCount packet s.p - 1) / 8 :=
    Nat.shiftRight_eq_div_pow _ _
  rw [parseRound, if_neg (by rw [checkLen_eq_false]; omega)]
  simp only [(labelType_eq_bits packet s.p).mpr ⟨hlow, hhigh⟩, labelLow_eq_one hlow hhigh,
    checkLen_eq_false, hcount, hdigs, hbytes, ne_eq]
  rw [if_neg (by omega), if_neg (by omega), if_neg (by omega), if_pos trivial]
  rfl

theorem parseRound_label (h : s.p < plen) (hlow : packet.byte s.p ≠ 0)
    (hhigh : packet.byte s.p < 64) : parseRound packet plen isExtract extrabytes s =
      if maxDname ≤ s.cp + packet.byte s.p + 1 ∨ plen < s.p + 1 + packet.byte s.p then
      .ret (0, s.fetch)
      else if isExtract then
        match s.fetch.copyLabel packet (packet.byte s.p) with
        | .error s => .ret (0, s)
        | .ok s => .again (s.put 46)
      else .again (s.fetch.compareLabel packet (packet.byte s.p)).compareDot := by
  rw [parseRound, if_neg (by rw [checkLen_eq_false]; omega)]
  simp only [labelType_eq_pointer, labelType_eq_reserved, labelType_eq_bits, checkLen_eq_false]
  rw [if_neg hlow, if_neg (by omega), if_neg (by omega), if_neg (by omega)]
  rfl

end Rounds

/-! ### The accesses of a round -/

section Accesses

variable {packet : Packet} {plen extrabytes : ℕ} {isExtract : Bool} {s t : NameParse}

theorem not_overruns_outside {p hops cp : ℕ} (h : plen ≤ p) : ¬ Overruns packet plen p hops cp := by
  rintro (⟨-, hlast⟩ | ⟨-, hlast, -⟩ | ⟨-, hinside, -⟩ | ⟨-, -, hinside, -, -⟩
    | ⟨-, hinside, -⟩) <;> omega

theorem overruns_pointer_iff (plen : ℕ) {p : ℕ} (hops cp : ℕ) (hpointer : 192 ≤ packet.byte p) :
    Overruns packet plen p hops cp ↔
      p + 2 ≤ plen ∧ hops < 255 ∧ Overruns packet plen (pointerTarget packet p) (hops + 1) cp := by
  constructor
  · rintro (⟨hbits, -⟩ | ⟨hbits, -, -⟩ | ⟨-, hinside, hhops, hrest⟩ | ⟨-, hhigh, -, -, -, -⟩
      | ⟨hbits, -, -, -⟩)
    · omega
    · omega
    · exact ⟨hinside, hhops, hrest⟩
    · omega
    · omega
  · rintro ⟨hinside, hhops, hrest⟩
    exact .pointer hpointer hinside hhops hrest

theorem overruns_chars_iff (plen : ℕ) {p : ℕ} (hops cp : ℕ) (hlow : packet.byte p ≠ 0)
    (hhigh : packet.byte p < 64) : Overruns packet plen p hops cp ↔
      p + 1 + packet.byte p ≤ plen ∧ cp + packet.byte p + 1 < maxDname ∧
        (packet.slice (p + 1) (packet.byte p)).all labelChar = true ∧
        Overruns packet plen (p + 1 + packet.byte p) hops (cp + packet.byte p + 1) := by
  constructor
  · rintro (⟨hbits, -⟩ | ⟨hbits, -, -⟩ | ⟨hpointer, -, -, -⟩ | ⟨-, -, hinside, hroom, hall, hrest⟩
      | ⟨hbits, -, -, -⟩)
    · omega
    · omega
    · omega
    · exact ⟨hinside, hroom, hall, hrest⟩
    · omega
  · rintro ⟨hinside, hroom, hall, hrest⟩
    exact .chars hlow hhigh hinside hroom hall hrest

theorem overruns_bits_iff (plen : ℕ) {p : ℕ} (hops cp : ℕ) (hbits : packet.byte p = 65) :
    Overruns packet plen p hops cp ↔
      p + 1 = plen ∨ cp + digitCount (bitCount packet p) + 9 < maxDname ∧
        (p + 2 + (bitCount packet p - 1) / 8 = plen ∨
          p + 2 + (bitCount packet p - 1) / 8 < plen ∧
            Overruns packet plen (p + 2 + digitCount (bitCount packet p) / 2) hops
            (cp + (bitsText packet p).length)) := by
  constructor
  · rintro (⟨-, hlast⟩ | ⟨-, hlast, hroom⟩ | ⟨hpointer, -, -, -⟩ | ⟨-, hhigh, -, -, -, -⟩
      | ⟨-, hinside, hroom, hrest⟩)
    · exact Or.inl hlast
    · exact Or.inr ⟨hroom, Or.inl hlast⟩
    · omega
    · omega
    · exact Or.inr ⟨hroom, Or.inr ⟨hinside, hrest⟩⟩
  · rintro (hlast | ⟨hroom, hlast | ⟨hinside, hrest⟩⟩)
    · exact .count hbits hlast
    · exact .data hbits hlast hroom
    · exact .bits hbits hinside hroom hrest

theorem not_overruns_other {p hops cp : ℕ} (hlow : packet.byte p = 0 ∨ 64 ≤ packet.byte p)
    (hhigh : packet.byte p < 192) (hbits : packet.byte p ≠ 65) :
    ¬ Overruns packet plen p hops cp := by
  rintro (⟨h, -⟩ | ⟨h, -, -⟩ | ⟨h, -, -, -⟩ | ⟨h, h', -, -, -, -⟩ | ⟨h, -, -, -⟩) <;> omega

def ReadsInside (plen : ℕ) (s : NameParse) : Prop := ∀ k ∈ s.reads, k < plen

def WritesInside (s : NameParse) : Prop := ∀ k ∈ s.writes, k < maxDname

structure ReturnSound (packet : Packet) (plen : ℕ) (isExtract : Bool) (s t : NameParse) : Prop where
  writes : WritesInside t
  kept : ∀ k ∈ s.reads, k ∈ t.reads
  reads : ReadsInside plen s →
    (ReadsInside plen t ↔ ¬ (isExtract = true ∧ Overruns packet plen s.p s.hops s.cp))

structure RoundSound (packet : Packet) (plen : ℕ) (isExtract : Bool) (s t : NameParse) : Prop where
  writes : WritesInside t
  room : isExtract = true → t.cp < maxDname
  kept : ∀ k ∈ s.reads, k ∈ t.reads
  reads : ReadsInside plen s →
    ReadsInside plen t ∧
        (isExtract = true ∧ Overruns packet plen s.p s.hops s.cp ↔
          isExtract = true ∧ Overruns packet plen t.p t.hops t.cp) ∨
      ¬ ReadsInside plen t ∧ isExtract = true ∧ Overruns packet plen s.p s.hops s.cp

theorem readsInside_fetch (hs : ReadsInside plen s) (h : s.p < plen) : ReadsInside plen s.fetch :=
  List.forall_mem_cons.mpr ⟨h, hs⟩

theorem ReturnSound.of_inside (hwrites : WritesInside t) (hkept : ∀ k ∈ s.reads, k ∈ t.reads)
    (hreads : ReadsInside plen s → ReadsInside plen t)
    (hover : ¬ (isExtract = true ∧ Overruns packet plen s.p s.hops s.cp)) :
    ReturnSound packet plen isExtract s t :=
  ⟨hwrites, hkept, fun hs ↦ ⟨fun _ ↦ hover, fun _ ↦ hreads hs⟩⟩

def RoundAccesses (packet : Packet) (plen : ℕ) (isExtract : Bool) (s : NameParse) :
    Round NameParse (ℕ × NameParse) → Prop
  | .ret (_, t) => ReturnSound packet plen isExtract s t
  | .again t => RoundSound packet plen isExtract s t

theorem writesInside_finish (hwrites : WritesInside s)
    (hroom : isExtract = true → s.cp < maxDname) : WritesInside (s.finish isExtract).2 := by
  rw [NameParse.finish]
  cases isExtract with
  | true =>
    have hcp := hroom rfl
    exact List.forall_mem_cons.mpr ⟨by show s.cp - 1 < _; omega, hwrites⟩
  | false =>
    simp only [Bool.false_eq_true, if_false]
    split_ifs <;> exact hwrites

theorem reads_finish (isExtract : Bool) (s : NameParse) :
    (s.finish isExtract).2.reads = s.reads := by
  rw [NameParse.finish]
  cases isExtract with
  | true => rfl
  | false =>
    simp only [Bool.false_eq_true, if_false]
    split_ifs <;> rfl

theorem accesses_root (h : s.p < plen) (hroot : packet.byte s.p = 0) (hwrites : WritesInside s)
    (hroom : isExtract = true → s.cp < maxDname) :
    RoundAccesses packet plen isExtract s (parseRound packet plen isExtract extrabytes s) := by
  have hover : ¬ (isExtract = true ∧ Overruns packet plen s.p s.hops s.cp) := fun hover ↦
    not_overruns_other (Or.inl hroot) (by omega) (by omega) hover.2
  rw [parseRound_root h hroot]
  split_ifs with hend
  · exact .of_inside hwrites (fun _ ↦ List.mem_cons_of_mem _) (fun hs ↦
      readsInside_fetch hs h) hover
  · change ReturnSound packet plen isExtract s (s.fetch.finish isExtract).2
    have hreads := reads_finish isExtract s.fetch
    refine .of_inside (writesInside_finish hwrites hroom) (fun k hk ↦ ?_) (fun hs k hk ↦ ?_) hover
    · rw [hreads]
      exact List.mem_cons_of_mem _ hk
    · rw [hreads] at hk
      exact readsInside_fetch hs h k hk

theorem accesses_pointer (h : s.p < plen) (hpointer : 192 ≤ packet.byte s.p)
    (hwrites : WritesInside s) (hroom : isExtract = true → s.cp < maxDname) :
    RoundAccesses packet plen isExtract s (parseRound packet plen isExtract extrabytes s) := by
  have hiff := overruns_pointer_iff plen s.hops s.cp hpointer
  rw [parseRound_pointer h hpointer]
  split_ifs with hshort hhops
  · refine .of_inside hwrites (fun _ ↦ List.mem_cons_of_mem _) (fun hs ↦ readsInside_fetch hs h)
      fun hover ↦ ?_
    have := (hiff.mp hover.2).1
    omega
  · refine .of_inside hwrites (fun _ hk ↦ List.mem_cons_of_mem _ (List.mem_cons_of_mem _ hk))
      (fun hs ↦
        readsInside_fetch (readsInside_fetch hs h) (by show s.p + 1 < _; omega)) fun hover ↦ ?_
    have := (hiff.mp hover.2).2.1
    omega
  · refine ⟨hwrites, hroom, fun _ hk ↦ List.mem_cons_of_mem _ (List.mem_cons_of_mem _ hk),
      fun hs ↦ Or.inl ⟨?_, ?_⟩⟩
    · exact readsInside_fetch (readsInside_fetch hs h) (by show s.p + 1 < _; omega)
    · exact and_congr_right fun _ ↦
        hiff.trans ⟨fun hover ↦ hover.2.2, fun hover ↦ ⟨by omega, by omega, hover⟩⟩

theorem length_decimal_le {count : ℕ} (hcount : count ≤ 256) : (decimal count).length ≤ 3 := by
  have hall : ∀ c : Fin 257, (decimal c.val).length ≤ 3 := by decide +kernel
  exact hall ⟨count, by omega⟩

theorem bitCount_bounds (packet : Packet) (p : ℕ) :
    0 < bitCount packet p ∧ bitCount packet p ≤ 256 := by
  have := byte_lt packet (p + 1)
  rw [bitCount]
  split_ifs <;> omega

theorem length_bitsText_le (packet : Packet) (p : ℕ) :
    (bitsText packet p).length ≤ digitCount (bitCount packet p) + 9 := by
  have hdecimal := length_decimal_le (bitCount_bounds packet p).2
  simp only [bitsText, bitstringText, bitstringDigits, List.length_append, List.length_cons,
    List.length_nil, List.length_map, List.length_range]
  omega

theorem accesses_bits (h : s.p < plen) (hlow : 64 ≤ packet.byte s.p) (hhigh : packet.byte s.p < 128)
    (hwrites : WritesInside s) :
    RoundAccesses packet plen isExtract s (parseRound packet plen isExtract extrabytes s) := by
  rw [parseRound_bits h hlow hhigh]
  split_ifs with hrefused hshort
  · refine .of_inside hwrites (fun _ ↦ List.mem_cons_of_mem _) (fun hs ↦ readsInside_fetch hs h) ?_
    rintro ⟨hextract, hover⟩
    rcases hrefused with hother | hcompare
    · exact not_overruns_other (Or.inr hlow) (by omega) hother hover
    · rw [hextract] at hcompare
      cases hcompare
  · -- the number of bits is read before its place is checked
    obtain ⟨hbits, hextract⟩ := not_or.mp hrefused
    have hiff := overruns_bits_iff plen s.hops s.cp (not_not.mp hbits)
    refine ⟨hwrites, fun _ hk ↦ List.mem_cons_of_mem _ (List.mem_cons_of_mem _ hk), fun hs ↦ ?_⟩
    rw [hiff]
    constructor
    · intro ht hover
      have hcount : s.p + 1 < plen := ht _ (List.mem_cons_self ..)
      omega
    · intro hover
      have hcount : s.p + 1 ≠ plen := fun hlast ↦ hover ⟨by simpa using hextract, Or.inl hlast⟩
      exact readsInside_fetch (readsInside_fetch hs h) (by show s.p + 1 < _; omega)
  · obtain ⟨hbits, hextract⟩ := not_or.mp hrefused
    have hiff := overruns_bits_iff plen s.hops s.cp (not_not.mp hbits)
    obtain ⟨hmoves, hread⟩ := NameParse.putBits_spec packet s.fetch.fetch (bitCount packet s.p)
      (digitCount (bitCount packet s.p)) (Nat.succ_pos _)
    have hlength := length_bitsText_le packet s.p
    have hcp :
      (s.fetch.fetch.putBits packet (bitCount packet s.p) (digitCount (bitCount packet s.p))).cp =
        s.cp + (bitsText packet s.p).length := hmoves.cp
    have hp :
      (s.fetch.fetch.putBits packet (bitCount packet s.p) (digitCount (bitCount packet s.p))).p =
        s.p + 2 + digitCount (bitCount packet s.p) / 2 := hmoves.p
    have hbyte :
      s.p + 2 + (digitCount (bitCount packet s.p) - 1) / 2 ∈ (s.fetch.fetch.putBits packet
        (bitCount packet s.p) (digitCount (bitCount packet s.p))).reads := hread
    have hhalf : (digitCount (bitCount packet s.p) - 1) / 2 = (bitCount packet s.p - 1) / 8 := by
      rw [digitCount]
      omega
    have hhi : s.p + 2 + (digitCount (bitCount packet s.p) + 1) / 2 =
      s.p + 2 + (bitCount packet s.p - 1) / 8 + 1 := by
      rw [digitCount]
      omega
    rw [hhalf] at hbyte
    refine ⟨fun k hk ↦ ?_, fun _ ↦ by omega, fun k hk ↦ hmoves.kept k ?_, fun hs ↦ ?_⟩
    · rcases hmoves.writes k hk with hmem | hlt
      · exact hwrites k hmem
      · omega
    · exact List.mem_cons_of_mem _ (List.mem_cons_of_mem _ hk)
    · rw [hiff]
      by_cases hlast : s.p + 2 + (bitCount packet s.p - 1) / 8 = plen
      · refine Or.inr ⟨fun ht ↦ ?_, by simpa using hextract, Or.inr ⟨by omega, Or.inl hlast⟩⟩
        have := ht _ hbyte
        omega
      · refine Or.inl ⟨fun k hk ↦ ?_, and_congr_right fun _ ↦ ?_⟩
        · rcases hmoves.reads k hk with hmem | hlt
          · exact readsInside_fetch (readsInside_fetch hs h) (by show s.p + 1 < _; omega) k hmem
          · change k < s.p + 2 + _ at hlt
            omega
        · rw [hcp, hp, hmoves.hops]
          constructor
          · rintro (hcount | ⟨-, hdata | ⟨-, hover⟩⟩)
            · omega
            · exact absurd hdata hlast
            · exact hover
          · exact fun hover ↦ Or.inr ⟨by omega, Or.inr ⟨by omega, hover⟩⟩

theorem accesses_label (h : s.p < plen) (hlow : packet.byte s.p ≠ 0) (hhigh : packet.byte s.p < 64)
    (hwrites : WritesInside s) :
    RoundAccesses packet plen isExtract s (parseRound packet plen isExtract extrabytes s) := by
  have hiff := overruns_chars_iff plen s.hops s.cp hlow hhigh
  rw [parseRound_label h hlow hhigh]
  split_ifs with hshort hextract
  · refine .of_inside hwrites (fun _ ↦ List.mem_cons_of_mem _) (fun hs ↦ readsInside_fetch hs h)
      fun hover ↦ ?_
    obtain ⟨hinside, hfits, -, -⟩ := hiff.mp hover.2
    omega
  · have hcopy := NameParse.copyLabel_spec packet (packet.byte s.p) s.fetch
    cases hresult : s.fetch.copyLabel packet (packet.byte s.p) with
    | error t =>
      rw [hresult] at hcopy
      obtain ⟨hall, hreads, hkept, -, htwrites⟩ := hcopy
      refine .of_inside (fun k hk ↦ ?_) (fun k hk ↦ hkept k (List.mem_cons_of_mem _ hk))
        (fun hs k hk ↦ ?_) fun hover ↦ ?_
      · rcases htwrites k hk with hmem | hlt
        · exact hwrites k hmem
        · change k < s.cp + _ at hlt
          omega
      · rcases hreads k hk with hmem | hlt
        · exact readsInside_fetch hs h k hmem
        · change k < s.p + 1 + _ at hlt
          omega
      · rw [hiff] at hover
        change (packet.slice (s.p + 1) (packet.byte s.p)).all labelChar = false at hall
        rw [hover.2.2.2.1] at hall
        cases hall
    | ok t =>
      rw [hresult] at hcopy
      obtain ⟨hall, hmoves⟩ := hcopy
      have hdot := hmoves.trans (NameParse.moves_put t (s.fetch.p + packet.byte s.p) 46)
      have hcp : (t.put 46).cp = s.cp + packet.byte s.p + 1 := by
        rw [hdot.cp, List.length_append, length_slice]
        rfl
      refine ⟨fun k hk ↦ ?_,
        fun _ ↦ by omega, fun k hk ↦ hdot.kept k (List.mem_cons_of_mem _ hk), fun hs ↦ Or.inl
        ⟨fun k hk ↦ ?_, and_congr_right fun _ ↦ ?_⟩⟩
      · rcases hdot.writes k hk with hmem | hlt
        · exact hwrites k hmem
        · omega
      · rcases hdot.reads k hk with hmem | hlt
        · exact readsInside_fetch hs h k hmem
        · change k < s.p + 1 + _ at hlt
          omega
      · rw [hiff, hcp, hdot.hops, hdot.p]
        exact ⟨fun hover ↦ hover.2.2.2, fun hover ↦ ⟨by omega, by omega, hall, hover⟩⟩
  · obtain ⟨-, -, -, -, -, hreads, htwrites⟩ :=
      NameParse.compareLabel_spec packet (packet.byte s.p) s.fetch
    obtain ⟨-, -, -, -, -, hdotReads, hdotWrites⟩ :=
      NameParse.compareDot_spec (s.fetch.compareLabel packet (packet.byte s.p))
    refine ⟨fun k hk ↦ ?_, fun hyes ↦ absurd hyes hextract, fun k hk ↦ ?_, fun hs ↦
      Or.inl ⟨fun k hk ↦ ?_, ?_⟩⟩
    · rw [hdotWrites, htwrites] at hk
      exact hwrites k hk
    · rw [hdotReads]
      exact NameParse.kept_compareLabel packet _ s.fetch k (List.mem_cons_of_mem _ hk)
    · rw [hdotReads] at hk
      rcases hreads k hk with hmem | hlt
      · exact readsInside_fetch hs h k hmem
      · change k < s.p + 1 + _ at hlt
        omega
    · simp [hextract]

/-- What a round accesses is inside the packet, unless it reads a bitstring that runs over the end.
-/
theorem round_accesses (packet : Packet) (plen extrabytes : ℕ) (hwrites : WritesInside s)
    (hroom : isExtract = true → s.cp < maxDname) :
    RoundAccesses packet plen isExtract s (parseRound packet plen isExtract extrabytes s) := by
  by_cases h : s.p < plen
  · by_cases hroot : packet.byte s.p = 0
    · exact accesses_root h hroot hwrites hroom
    by_cases hchars : packet.byte s.p < 64
    · exact accesses_label h hroot hchars hwrites
    by_cases hbits : packet.byte s.p < 128
    · exact accesses_bits h (by omega) hbits hwrites
    by_cases hreserved : packet.byte s.p < 192
    · rw [parseRound_reserved h (by omega) hreserved]
      exact .of_inside hwrites (fun _ ↦ List.mem_cons_of_mem _) (fun hs ↦ readsInside_fetch hs h)
        fun hover ↦ not_overruns_other (Or.inr (by omega)) hreserved (by omega) hover.2
    · exact accesses_pointer h (by omega) hwrites hroom
  · rw [parseRound_outside (by omega)]
    exact .of_inside hwrites (fun _ ↦ id) id fun hover ↦ not_overruns_outside (by omega) hover.2

theorem returns_accesses {s : NameParse} {value : ℕ × NameParse}
    (h : Returns (parseRound packet plen isExtract extrabytes) s value) (hwrites : WritesInside s)
    (hroom : isExtract = true → s.cp < maxDname) : ReturnSound packet plen isExtract s value.2 := by
  induction h with
  | ret hbody =>
    have hround := round_accesses packet plen extrabytes hwrites hroom
    rw [hbody] at hround
    exact hround
  | again hbody _ ih =>
    have hround := round_accesses packet plen extrabytes hwrites hroom
    rw [hbody] at hround
    have hrest := ih hround.writes hround.room
    refine ⟨hrest.writes, fun k hk ↦ hrest.kept k (hround.kept k hk), fun hs ↦ ?_⟩
    rcases hround.reads hs with ⟨ht, hover⟩ | ⟨ht, hover⟩
    · rw [hrest.reads ht, hover]
    · exact ⟨fun hvalue ↦ absurd (fun k hk ↦ hvalue k (hrest.kept k hk)) ht, fun hnot ↦
        absurd hover hnot⟩

end Accesses

/-! ### The value of the function -/

def HoldsText (name : ℕ → UInt8) (text : List UInt8) : Prop :=
  0 ∉ text ∧ ∀ k ≤ text.length, name k = text.getD k 0

structure ComparesAs (text : List UInt8) (s : NameParse) (scan : NameScan) : Prop where
  name : HoldsText s.name text
  inside : s.cp ≤ text.length
  cp : s.cp = scan.cp
  rest : scan.rest = text.drop s.cp
  retvalue : s.retvalue = if scan.differs then 2 else 1

structure ParseRel (isExtract : Bool) (pp : ℕ) (text : List UInt8) (s : NameParse)
    (t : NameCursor) : Prop where
  pp : s.pp = pp
  p : s.p = t.p
  p1 : s.p1 = t.p1
  hops : s.hops = t.hops
  cp : s.cp = t.scan.cp
  extracted : isExtract = true → s.text = t.scan.out ∧ s.retvalue = 1
  compared : isExtract = false → ComparesAs text s t.scan

/-- What is returned and what the model returns. -/
def ParsePost (isExtract : Bool) (pp : ℕ) (value : ℕ × NameParse) : Option (NameScan × ℕ) → Prop
  | none => value.1 = 0 ∧ value.2.pp = pp
  | some (scan, next) => value.2.pp = next ∧
      if isExtract then
        value.1 = 1 ∧
          (List.range (scan.out.dropLast.length + 1)).map value.2.name = scan.out.dropLast ++ [0]
      else value.1 = if scan.differs = false ∧ scan.rest = [] then 1 else 2

variable {scan : NameScan}

section Values

variable {packet : Packet} {plen extrabytes pp : ℕ} {isExtract : Bool} {text : List UInt8}
    {s : NameParse} {t : NameCursor}

theorem ComparesAs.char_eq (h : ComparesAs text s scan) : s.name s.cp = scan.rest.headD 0 := by
  rw [h.name.2 _ h.inside, h.rest, List.headD_eq_head?_getD, List.head?_drop,
    List.getD_eq_getElem?_getD]

theorem ComparesAs.char_eq_zero_iff (h : ComparesAs text s scan) :
    s.name s.cp = 0 ↔ scan.rest = [] := by
  rw [h.char_eq]
  constructor
  · intro hzero
    cases hrest : scan.rest with
    | nil => rfl
    | cons c rest =>
      rw [hrest] at hzero
      have hmem : c ∈ text :=
        List.mem_of_mem_drop (i := s.cp) (by rw [← h.rest, hrest]; exact List.mem_cons_self ..)
      exact absurd (hzero ▸ hmem) h.name.1
  · intro hnil
    rw [hnil]
    rfl

theorem ComparesAs.advance (h : ComparesAs text s scan) {c : UInt8} {rest : List UInt8}
    (hrest : scan.rest = c :: rest) : s.name s.cp = c ∧ s.cp + 1 ≤ text.length ∧ rest = text.drop
      (s.cp + 1) := by
  have hdrop := h.rest
  rw [hrest] at hdrop
  have hlength := congrArg List.length hdrop
  rw [List.length_cons, List.length_drop] at hlength
  refine ⟨by rw [h.char_eq, hrest]; rfl, by omega, ?_⟩
  rw [← List.tail_drop, ← hdrop]
  rfl

theorem compareChar_comparesAs (packet : Packet) (h : ComparesAs text s scan) :
    ComparesAs text (s.compareChar packet) (scan.compare (packet.getD s.p 0)) := by
  rw [NameParse.compareChar]
  cases hrest : scan.rest with
  | nil =>
    rw [if_pos (h.char_eq_zero_iff.mpr hrest), NameScan.compare, hrest]
    exact ⟨h.name, h.inside, h.cp, hrest.symm.trans h.rest, rfl⟩
  | cons c rest =>
    obtain ⟨hchar, hinside, hdrop⟩ := h.advance hrest
    have hne : ¬ s.name s.cp = 0 := fun hzero ↦ by
      rw [h.char_eq_zero_iff.mp hzero] at hrest
      cases hrest
    rw [if_neg hne, NameScan.compare, hrest]
    refine ⟨h.name, hinside, by rw [h.cp], hdrop, ?_⟩
    have hvalue := h.retvalue
    generalize packet.getD s.p 0 = c2
    simp only [hchar]
    by_cases hequal : toLower c = toLower c2
    · simp [hequal, hvalue]
    · simp [hequal]

theorem compareLabel_comparesAs (packet : Packet) (l : ℕ) :
    ∀ {s : NameParse} {scan : NameScan}, ComparesAs text s scan →
    ComparesAs text (s.compareLabel packet l)
      ((packet.slice s.p l).foldl NameScan.compare scan) := by
  induction l with
  | zero => exact fun h ↦ h
  | succ l ih =>
    intro s scan h
    rw [NameParse.compareLabel, NameParse.slice_succ, List.foldl_cons]
    have hrest := ih (compareChar_comparesAs packet h)
    rwa [(NameParse.compareChar_spec packet s).2.2.2.1] at hrest

theorem compareDot_comparesAs (h : ComparesAs text s scan) :
    ComparesAs text s.compareDot scan.compareDot := by
  rw [NameParse.compareDot]
  cases hrest : scan.rest with
  | nil =>
    rw [if_pos (h.char_eq_zero_iff.mpr hrest), NameScan.compareDot, hrest]
    exact h
  | cons c rest =>
    obtain ⟨hchar, hinside, hdrop⟩ := h.advance hrest
    have hne : ¬ s.name s.cp = 0 := fun hzero ↦ by
      rw [h.char_eq_zero_iff.mp hzero] at hrest
      cases hrest
    rw [if_neg hne, NameScan.compareDot, hrest]
    refine ⟨h.name, hinside, by rw [h.cp], hdrop, ?_⟩
    have hvalue := h.retvalue
    simp only [hchar]
    by_cases hequal : c = 46
    · simp [hequal, hvalue]
    · simp [hequal]

theorem finish_extract (h : ParseRel true pp text s t) :
    ParsePost true pp (s.fetch.finish true) (some (t.scan, t.p1.getD (t.p + 1))) := by
  obtain ⟨htext, hvalue⟩ := h.extracted rfl
  have hlength : s.cp = t.scan.out.length := by
    rw [← htext]
    simp [NameParse.text]
  refine ⟨?_, hvalue, ?_⟩
  · change s.p1.getD (s.p + 1) = _
    rw [h.p1, h.p]
  · change (List.range _).map (Function.update s.name (s.cp - 1) 0) = _
    rw [List.length_dropLast, ← hlength, List.range_succ, List.map_append, List.map_singleton,
      Function.update_self]
    congr 1
    have hrange : (List.range s.cp).dropLast = List.range (s.cp - 1) := by
      cases s.cp with
      | zero => rfl
      | succ cp => rw [List.range_succ, List.dropLast_concat, Nat.add_sub_cancel]
    rw [← htext, NameParse.text, ← List.map_dropLast, hrange]
    refine List.map_congr_left fun k hk ↦ Function.update_of_ne ?_ _ _
    rw [List.mem_range] at hk
    omega

theorem finish_compare (h : ParseRel false pp text s t) :
    ParsePost false pp (s.fetch.finish false) (some (t.scan, t.p1.getD (t.p + 1))) := by
  have hscan := h.compared rfl
  have hpp : s.p1.getD (s.p + 1) = t.p1.getD (t.p + 1) := by rw [h.p1, h.p]
  have hzero : s.fetch.name s.fetch.cp = 0 ↔ t.scan.rest = [] := hscan.char_eq_zero_iff
  have hvalue : s.fetch.retvalue = if t.scan.differs then 2 else 1 := hscan.retvalue
  simp only [NameParse.finish, ParsePost, Bool.false_eq_true, if_false, ne_eq, hzero, hvalue]
  by_cases hrest : t.scan.rest = []
  · cases hdiffers : t.scan.differs <;> simp [hrest, ← hpp, NameParse.fetch]
  · simp [hrest, ← hpp, NameParse.fetch]

/-- A round of the model and one of the function. -/
abbrev RoundRel (isExtract : Bool) (pp : ℕ) (text : List UInt8) :
    Round NameCursor (Option (NameScan × ℕ)) → Round NameParse (ℕ × NameParse) → Prop :=
  Round.Agree (fun t s ↦ ParseRel isExtract pp text s t) fun result value ↦
    ParsePost isExtract pp value result

theorem ParseRel.moves (h : ParseRel true pp text s t) {s' : NameParse} {n hi : ℕ}
    {bytes : List UInt8} (hmoves : NameParse.Moves s s' n hi bytes) :
    ParseRel true pp text s' ⟨t.p + n, t.p1, t.hops,
      { t.scan with out := t.scan.out ++ bytes, cp := t.scan.cp + bytes.length }⟩ where
  pp := hmoves.pp.trans h.pp
  p := by rw [hmoves.p, h.p]
  p1 := hmoves.p1.trans h.p1
  hops := hmoves.hops.trans h.hops
  cp := by rw [hmoves.cp, h.cp]
  extracted hextract :=
    ⟨by rw [hmoves.text, (h.extracted hextract).1], hmoves.retvalue.trans (h.extracted hextract).2⟩
  compared hcompare := nomatch hcompare

theorem simulates_label (h : ParseRel isExtract pp text s t) (hinside : s.p < plen)
    (hlow : packet.byte s.p ≠ 0) (hhigh : packet.byte s.p < 64) :
    RoundRel isExtract pp text (nameRound packet plen isExtract extrabytes t)
      (parseRound packet plen isExtract extrabytes s) := by
  have hfailed : ParsePost isExtract pp (0, s) none := ⟨rfl, h.pp⟩
  rw [nameRound_label (h.p ▸ hinside) (h.p ▸ hlow) (h.p ▸ hhigh),
    parseRound_label hinside hlow hhigh, ← h.p, ← h.cp]
  by_cases hshort : maxDname ≤ s.cp + packet.byte s.p + 1 ∨ plen < s.p + 1 + packet.byte s.p
  · rw [if_pos hshort, if_pos hshort]
    exact hfailed
  · rw [if_neg hshort, if_neg hshort]
    cases isExtract with
    | true =>
      rw [if_pos rfl]
      have hcopy := NameParse.copyLabel_spec packet (packet.byte s.p) s.fetch
      cases hresult : s.fetch.copyLabel packet (packet.byte s.p) with
      | error s' =>
        rw [hresult] at hcopy
        have hall : (packet.slice (s.p + 1) (packet.byte s.p)).all labelChar = false := hcopy.1
        have hlabel : t.scan.label packet true (s.p + 1) (packet.byte s.p) = none := by
          simp [NameScan.label, hall]
        rw [hlabel]
        exact ⟨rfl, hcopy.2.2.2.1.trans h.pp⟩
      | ok s' =>
        rw [hresult] at hcopy
        have hall : (packet.slice (s.p + 1) (packet.byte s.p)).all labelChar = true := hcopy.1
        rw [label_extract_iff.mpr ⟨hall, rfl⟩]
        have hmoves :=
          ((NameParse.moves_fetch (s.fetch.p + packet.byte s.p)
            (by show s.p < s.p + 1 + _; omega)).trans
          hcopy.2).trans (NameParse.moves_put s' (s.fetch.p + packet.byte s.p) 46)
        have hrel := h.moves hmoves
        have hslice : packet.slice s.fetch.p (packet.byte s.p) =
          packet.slice (s.p + 1) (packet.byte s.p) := rfl
        rw [hslice, List.nil_append, Nat.add_zero, ← Nat.add_assoc, ← h.p] at hrel
        exact hrel
    | false =>
      rw [if_neg Bool.false_ne_true, label_compare]
      have hscan := h.compared rfl
      have hfetch : ComparesAs text s.fetch t.scan :=
        ⟨hscan.name, hscan.inside, hscan.cp, hscan.rest, hscan.retvalue⟩
      have hlabel := compareDot_comparesAs (compareLabel_comparesAs packet (packet.byte s.p) hfetch)
      obtain ⟨hpp, hp1, hhops, hp, -⟩ :=
        NameParse.compareLabel_spec packet (packet.byte s.p) s.fetch
      obtain ⟨hpp', hp1', hhops', hp', -⟩ :=
        NameParse.compareDot_spec (s.fetch.compareLabel packet (packet.byte s.p))
      exact ⟨hpp'.trans (hpp.trans h.pp), hp'.trans hp, hp1'.trans (hp1.trans h.p1),
        hhops'.trans (hhops.trans h.hops),
        hlabel.cp, fun hextract ↦ absurd hextract Bool.false_ne_true, fun _ ↦ hlabel⟩

theorem simulates_bits (h : ParseRel isExtract pp text s t) (hinside : s.p < plen)
    (hlow : 64 ≤ packet.byte s.p) (hhigh : packet.byte s.p < 128) :
    RoundRel isExtract pp text (nameRound packet plen isExtract extrabytes t)
      (parseRound packet plen isExtract extrabytes s) := by
  have hfailed : ParsePost isExtract pp (0, s) none := ⟨rfl, h.pp⟩
  rw [nameRound_bits (h.p ▸ hinside) (h.p ▸ hlow) (h.p ▸ hhigh), parseRound_bits hinside hlow hhigh,
    ← h.p, ← h.cp]
  by_cases hrefused : packet.byte s.p ≠ 65 ∨ isExtract = false
  · rw [if_pos hrefused, if_pos (hrefused.imp id Or.inl)]
    exact hfailed
  · rw [if_neg hrefused]
    by_cases hshort : maxDname ≤ s.cp + digitCount (bitCount packet s.p) + 9 ∨
        plen < s.p + 2 + (bitCount packet s.p - 1) / 8
    · rw [if_pos hshort, if_pos (Or.inr (Or.inr hshort))]
      exact hfailed
    · rw [if_neg hshort, if_neg (by grind)]
      obtain rfl : isExtract = true := by simpa using (not_or.mp hrefused).2
      have hbits := (NameParse.putBits_spec packet s.fetch.fetch (bitCount packet s.p)
        (digitCount (bitCount packet s.p)) (Nat.succ_pos _)).1
      have hmoves :=
        ((NameParse.moves_fetch (s.fetch.fetch.p + (digitCount (bitCount packet s.p) + 1) / 2)
        (by show s.p < s.p + 1 + 1 + _; omega)).trans
          (NameParse.moves_fetch _ (by show s.p + 1 < s.p + 1 + 1 + _; omega))).trans hbits
      have hrel := h.moves hmoves
      have htext : bitstringText packet s.fetch.fetch.p (bitCount packet s.p)
        (digitCount (bitCount packet s.p)) =
          bitsText packet s.p := rfl
      rw [htext, List.nil_append, List.nil_append, ← Nat.add_assoc, ← h.p, ← h.cp] at hrel
      exact hrel

theorem round_simulates (h : ParseRel isExtract pp text s t) :
    RoundRel isExtract pp text (nameRound packet plen isExtract extrabytes t)
      (parseRound packet plen isExtract extrabytes s) := by
  have hfailed : ParsePost isExtract pp (0, s) none := ⟨rfl, h.pp⟩
  by_cases hinside : s.p < plen
  · have hinside' : t.p < plen := h.p ▸ hinside
    by_cases hroot : packet.byte s.p = 0
    · rw [nameRound_root hinside' (h.p ▸ hroot), parseRound_root hinside hroot, ← h.p]
      by_cases hend : s.p + 1 + extrabytes ≤ plen
      · rw [if_pos hend, if_neg (by omega)]
        cases isExtract with
        | true =>
          have hfinish := finish_extract h
          rw [← h.p] at hfinish
          exact hfinish
        | false =>
          have hfinish := finish_compare h
          rw [← h.p] at hfinish
          exact hfinish
      · rw [if_neg hend, if_pos (by omega)]
        exact hfailed
    by_cases hchars : packet.byte s.p < 64
    · exact simulates_label h hinside hroot hchars
    by_cases hbits : packet.byte s.p < 128
    · exact simulates_bits h hinside (by omega) hbits
    by_cases hreserved : packet.byte s.p < 192
    · rw [nameRound_reserved
        (h.p ▸ by omega) (h.p ▸ hreserved), parseRound_reserved hinside (by omega) hreserved]
      exact hfailed
    · have hpointer : 192 ≤ packet.byte s.p := by omega
      rw [nameRound_pointer hinside' (h.p ▸ hpointer), parseRound_pointer hinside hpointer, ← h.p,
        ← h.hops, ← h.p1]
      by_cases hshort : plen < s.p + 2
      · rw [if_pos (Or.inl hshort), if_pos hshort]
        exact hfailed
      · rw [if_neg hshort]
        by_cases hhops : 255 < s.hops + 1
        · rw [if_pos (Or.inr (by omega)), if_pos hhops]
          exact hfailed
        · rw [if_neg (by omega), if_neg hhops]
          exact ⟨h.pp, rfl, rfl, rfl, h.cp, h.extracted, fun hcompare ↦
            ⟨(h.compared hcompare).name, (h.compared hcompare).inside, h.cp,
              (h.compared hcompare).rest, (h.compared hcompare).retvalue⟩⟩
  · rw [nameRound_outside (h.p ▸ by omega), parseRound_outside (by omega)]
    exact hfailed

end Values

/-! ### Results -/

variable {packet : Packet} {plen extrabytes : ℕ} {isExtract : Bool}

def NameParse.size (plen : ℕ) (s : NameParse) : ℕ := (255 - s.hops) * plen + (plen - s.p)

theorem parseRound_size (packet : Packet) (plen : ℕ) (isExtract : Bool) (extrabytes : ℕ)
    (s t : NameParse) (h : parseRound packet plen isExtract extrabytes s = .again t) :
    t.size plen < s.size plen := by
  have hless : ∀ n, s.p < plen → t.hops = s.hops → t.p = s.p + (n + 1) →
    t.size plen < s.size plen := by
    intro n hinside hhops hp
    rw [NameParse.size, NameParse.size, hhops, hp]
    omega
  by_cases hinside : s.p < plen
  · by_cases hroot : packet.byte s.p = 0
    · rw [parseRound_root hinside hroot] at h
      split_ifs at h
    by_cases hchars : packet.byte s.p < 64
    · rw [parseRound_label hinside hroot hchars] at h
      split_ifs at h
      · have hcopy := NameParse.copyLabel_spec packet (packet.byte s.p) s.fetch
        cases hresult : s.fetch.copyLabel packet (packet.byte s.p) with
        | error s' => simp [hresult] at h
        | ok s' =>
          rw [hresult] at h hcopy
          cases h
          exact hless (packet.byte s.p) hinside hcopy.2.hops
            (hcopy.2.p.trans (by rw [Nat.add_comm _ 1, ← Nat.add_assoc]; rfl))
      · cases h
        obtain ⟨-, -, hhops, hp, -⟩ := NameParse.compareLabel_spec packet (packet.byte s.p) s.fetch
        obtain ⟨-, -, hhops', hp', -⟩ :=
          NameParse.compareDot_spec (s.fetch.compareLabel packet (packet.byte s.p))
        exact hless (packet.byte s.p) hinside (hhops'.trans hhops)
          ((hp'.trans hp).trans (by rw [Nat.add_comm _ 1, ← Nat.add_assoc]; rfl))
    by_cases hbits : packet.byte s.p < 128
    · rw [parseRound_bits hinside (by omega) hbits] at h
      split_ifs at h
      cases h
      have hmoves := (NameParse.putBits_spec packet s.fetch.fetch (bitCount packet s.p)
        (digitCount (bitCount packet s.p)) (Nat.succ_pos _)).1
      exact hless (1 + digitCount (bitCount packet s.p) / 2) hinside hmoves.hops
        (hmoves.p.trans (by show s.p + 1 + 1 + _ = _; omega))
    by_cases hreserved : packet.byte s.p < 192
    · rw [parseRound_reserved hinside (by omega) hreserved] at h
      cases h
    · rw [parseRound_pointer hinside (by omega)] at h
      split_ifs at h with hshort hhops
      cases h
      have hsplit : (255 - s.hops) * plen = (255 - (s.hops + 1)) * plen + plen := by
        rw [← Nat.succ_mul]
        congr 1
        omega
      change (255 - (s.hops + 1)) * plen + (plen - _) < (255 - s.hops) * plen + (plen - s.p)
      omega
  · rw [parseRound_outside (by omega)] at h
    cases h

/-- The function returns, and what it accesses is inside the packet and the buffer unless it reads a
bitstring that runs over the end. -/
theorem parseName_accesses (packet : Packet) (plen p : ℕ) (isExtract : Bool) (extrabytes : ℕ)
    (name : ℕ → UInt8) :
    ∃ value s, parseName packet plen p isExtract extrabytes name (nameFuel plen) = some (value, s) ∧
      WritesInside s ∧
      (ReadsInside plen s ↔ ¬ (isExtract = true ∧ Overruns packet plen p 0 0)) := by
  have hp : (parseStart p isExtract name).p = p := by cases isExtract <;> rfl
  have hhops : (parseStart p isExtract name).hops = 0 := by cases isExtract <;> rfl
  have hcp : (parseStart p isExtract name).cp = 0 := by cases isExtract <;> rfl
  have hreads : (parseStart p isExtract name).reads = [] := by cases isExtract <;> rfl
  have hwrites : WritesInside (parseStart p isExtract name) := by
    cases isExtract with
    | true => exact List.forall_mem_singleton.mpr (show 0 < maxDname by decide)
    | false => exact fun _ hk ↦ absurd hk List.not_mem_nil
  have hrounds : (parseStart p isExtract name).size plen < nameFuel plen := by
    rw [NameParse.size, hhops, hp, nameFuel]
    omega
  obtain ⟨⟨value, s⟩, hrun⟩ := exists_runRounds (NameParse.size plen)
    (parseRound_size packet plen isExtract extrabytes) (nameFuel plen) hrounds
  have hsound := returns_accesses (returns_of_runRounds _ hrun) hwrites fun _ ↦ by rw [hcp]; decide
  have hstart : ReadsInside plen (parseStart p isExtract name) := fun k hk ↦ by
    rw [hreads] at hk
    exact absurd hk List.not_mem_nil
  refine ⟨value, s, hrun, hsound.writes, ?_⟩
  have hiff := hsound.reads hstart
  rwa [hp, hhops, hcp] at hiff

/-- `extract_name` returns, reads inside the packet and writes inside the name buffer. -/
def NameSafe (packet : Packet) (plen p : ℕ) (isExtract : Bool) (extrabytes : ℕ) (name : ℕ → UInt8) :
    Prop :=
  ∃ value s, parseName packet plen p isExtract extrabytes name (nameFuel plen) = some (value, s) ∧
    ReadsInside plen s ∧ WritesInside s

/-- `extract_name` is safe if it compares, or if the name does not lead to a bitstring that runs
over the end of the packet. -/
theorem nameSafe_iff (packet : Packet) (plen p : ℕ) (isExtract : Bool) (extrabytes : ℕ)
    (name : ℕ → UInt8) :
    NameSafe packet plen p isExtract extrabytes name ↔
      (isExtract = true → ¬ Overruns packet plen p 0 0) := by
  obtain ⟨value, s, hrun, hwrites, hreads⟩ :=
    parseName_accesses packet plen p isExtract extrabytes name
  rw [← not_and, ← hreads]
  constructor
  · rintro ⟨value', s', hrun', hinside, -⟩
    rw [hrun] at hrun'
    cases hrun'
    exact hinside
  · exact fun hinside ↦ ⟨value, s, hrun, hinside, hwrites⟩

def shortBits : Packet := List.replicate 12 0 ++ [65]

/-- The number of bits is read behind the end of the packet. -/
theorem not_nameSafe_shortBits : ¬ NameSafe shortBits 13 12 true 4 fun _ ↦ 0 := by
  rintro ⟨value, s, hrun, hreads, -⟩
  have hall : (parseName shortBits 13 12 true 4 (fun _ ↦ 0) (nameFuel 13)).map
    (fun result ↦ result.2.reads) =
      some [13, 12] := by
    decide +kernel
  rw [hrun] at hall
  have hlast : s.reads = [13, 12] := Option.some.inj hall
  exact absurd (hreads 13 (by rw [hlast]; exact List.mem_cons_self ..)) (Nat.lt_irrefl 13)

/-- The function returns what the loop of the model returns. -/
theorem exists_parseName (packet : Packet) (plen extrabytes : ℕ) {p : ℕ} {name : ℕ → UInt8}
    {text : List UInt8}
    (hrel : ParseRel isExtract p text (parseStart p isExtract name) ⟨p, none, 0, scan⟩) :
    ∃ value s, parseName packet plen p isExtract extrabytes name (nameFuel plen) = some (value, s) ∧
      ParsePost isExtract p (value, s)
      (extractNameLoop packet plen isExtract extrabytes (nameFuel plen) p none 0 scan) := by
  have hrounds : NameCursor.size plen ⟨p, none, 0, scan⟩ < nameFuel plen := by
    simp only [NameCursor.size, nameFuel]
    omega
  obtain ⟨result, hrun⟩ := exists_runRounds (NameCursor.size plen)
    (fun s _ ↦ @nameRound_size packet plen extrabytes isExtract s _) (nameFuel plen) hrounds
  obtain ⟨⟨value, s⟩, hparse, hpost⟩ :=
    runRounds_simulate _ _ (fun _ _ ↦ round_simulates) _ hrel hrun
  refine ⟨value, s, hparse, ?_⟩
  rw [extractNameLoop_eq, hrun]
  exact hpost

theorem parseName_extractName (packet : Packet) (plen p extrabytes : ℕ) (name : ℕ → UInt8) :
    ∃ value s, parseName packet plen p true extrabytes name (nameFuel plen) = some (value, s) ∧
      match extractName packet plen p extrabytes with
      | none => value = 0 ∧ s.pp = p
      | some (next, text) => value = 1 ∧ s.pp = next ∧
        (List.range (text.length + 1)).map s.name = text ++ [0] := by
  have hrel : ParseRel true p [] (parseStart p true name) ⟨p, none, 0, ⟨[], [], 0, false⟩⟩ :=
    ⟨rfl, rfl, rfl, rfl, rfl, fun _ ↦ ⟨rfl, rfl⟩, fun hcompare ↦ nomatch hcompare⟩
  obtain ⟨value, s, hrun, hpost⟩ := exists_parseName packet plen extrabytes hrel
  refine ⟨value, s, hrun, ?_⟩
  rw [extractName]
  cases hloop : extractNameLoop packet plen true extrabytes (nameFuel plen) p none 0 ⟨[], [],
    0, false⟩ with
  | none =>
    rw [hloop] at hpost
    exact hpost
  | some result =>
    rw [hloop] at hpost
    exact ⟨hpost.2.1, hpost.1, hpost.2.2⟩

/-- What the function says about a name in memory is what the model says: 1 for the same name. -/
theorem parseName_matchName (packet : Packet) (plen p extrabytes : ℕ) {name : ℕ → UInt8}
    {text : List UInt8} (hname : HoldsText name text) :
    ∃ value s, parseName packet plen p false extrabytes name (nameFuel plen) = some (value, s) ∧
      match matchName packet plen p text extrabytes with
      | none => value = 0 ∧ s.pp = p
      | some (next, same) => value = (if same then 1 else 2) ∧ s.pp = next := by
  have hrel : ParseRel false p text (parseStart p false name) ⟨p, none, 0, ⟨[], text, 0, false⟩⟩ :=
    ⟨rfl, rfl, rfl, rfl, rfl, fun hextract ↦ (nomatch hextract), fun _ ↦
      ⟨hname, Nat.zero_le _, rfl, rfl, rfl⟩⟩
  obtain ⟨value, s, hrun, hpost⟩ := exists_parseName packet plen extrabytes hrel
  refine ⟨value, s, hrun, ?_⟩
  rw [matchName]
  cases hloop : extractNameLoop packet plen false extrabytes (nameFuel plen) p none 0 ⟨[], text,
    0, false⟩ with
  | none =>
    rw [hloop] at hpost
    exact hpost
  | some result =>
    rw [hloop] at hpost
    refine ⟨?_, hpost.1⟩
    simpa using hpost.2

/-- A name of two labels, and another one that differs in the last letter. -/
theorem parseName_matchName_labels :
    (∃ s, parseName [1, 97, 1, 98, 0] 5 0 false 0 (fun i ↦ [65, 46, 98].getD i 0) (nameFuel 5) =
      some (1, s) ∧ s.pp = 5) ∧
    ∃ s, parseName [1, 97, 1, 98, 0] 5 0 false 0 (fun i ↦ [65, 46, 99].getD i 0) (nameFuel 5) =
      some (2, s) ∧ s.pp = 5 := by
  constructor
  · obtain ⟨value, s, hrun, hpost⟩ := parseName_matchName [1, 97, 1, 98, 0] 5 0 0
      (show HoldsText (fun i ↦ [65, 46, 98].getD i 0) [65, 46, 98] from ⟨by decide, by decide⟩)
    have hsame : matchName [1, 97, 1, 98, 0] 5 0 [65, 46, 98] 0 = some (5, true) := by decide
    rw [hsame] at hpost
    obtain ⟨rfl, hpp⟩ := hpost
    exact ⟨s, hrun, hpp⟩
  · obtain ⟨value, s, hrun, hpost⟩ := parseName_matchName [1, 97, 1, 98, 0] 5 0 0
      (show HoldsText (fun i ↦ [65, 46, 99].getD i 0) [65, 46, 99] from ⟨by decide, by decide⟩)
    have hother : matchName [1, 97, 1, 98, 0] 5 0 [65, 46, 99] 0 = some (5, false) := by decide
    rw [hother] at hpost
    obtain ⟨rfl, hpp⟩ := hpost
    exact ⟨s, hrun, hpp⟩

end CrossBreeder.Dnsmasq
