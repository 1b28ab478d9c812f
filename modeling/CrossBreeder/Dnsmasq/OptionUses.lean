import CrossBreeder.Dnsmasq.OptionSearch

/-!
# What the options are read for

`dhcp_reply` looks for options and reads the data of those that it finds: numbers and addresses, a
domain name, entries of an enterprise, classes of the user, bytes to be compared, other options.
What reads an option stays in the option (`Use.allAllowed_iff`), except the search among the options
of the broadband forum, which takes the length of the entry on trust.
-/

namespace CrossBreeder.Dnsmasq

variable {mess : Received} {opt p len a : ℕ} {val : List UInt8}

def optionPtr (opt i : ℕ) : ℕ := opt + 2 + i

def bytesAt (mess : Received) (p n : ℕ) : List UInt8 := (List.range' p n).map mess

/-- `option_uint`, for four bytes at most. -/
def optionUint (mess : Received) (opt offset size : ℕ) : ℕ :=
  (bytesAt mess (optionPtr opt offset) size).foldl (fun ret octet ↦ ret * 256 + octet.toNat) 0

/-! ### Comparisons -/

/-- A loop that compares the bytes at every stride, up to the last place or the first match. -/
def compareFrom (mess : Received) (val : List UInt8) (stride p last i : ℕ) : Bool × List ℕ :=
  if i ≤ last then
    if bytesAt mess (p + i) val.length = val then (true, List.range' (p + i) val.length)
    else
      let rest := compareFrom mess val stride p last (i + (stride + 1))
      (rest.1, List.range' (p + i) val.length ++ rest.2)
  else (false, [])
termination_by last + 1 - i

/-- `memcmp_masked` for the first so many bytes, from the last one on. A bit of the mask stands for
a byte that is not compared. -/
def memcmpMaskedAt (mess : Received) (val : List UInt8) (p : ℕ) : ℕ → ℕ → Bool × List ℕ
  | 0, _ => (true, [])
  | i + 1, mask =>
    if mask % 2 = 0 then
      if val.getD i 0 = mess (p + i) then
        let rest := memcmpMaskedAt mess val p i (mask / 2)
        (rest.1, (p + i) :: rest.2)
      else (false, [p + i])
    else memcmpMaskedAt mess val p i (mask / 2)

/-- `struct dhcp_opt` of `dhcp-match`. The enterprise and the mask share their place. -/
structure MatchOpt where
  opt : ℕ
  val : List UInt8
  rfc3925 : Bool
  hex : Bool
  string : Bool
  u : UInt32

def matchBytes (mess : Received) (o : MatchOpt) (p len : ℕ) : Bool × List ℕ :=
  if len < o.val.length then (false, [])
  else if o.val.length = 0 then (true, [])
  else if o.hex then memcmpMaskedAt mess o.val p o.val.length o.u.toNat
  else compareFrom mess o.val (if o.string then 0 else o.val.length - 1) p (len - o.val.length) 0

theorem mem_bytes {n : ℕ} : a ∈ List.range' p n ↔ p ≤ a ∧ a < p + n := List.mem_range'_1

/-- A loop that compares reads an offset from `limit` on if it comes to a place from which the bytes
reach there, without a match before. -/
theorem compareFrom_reaches_iff {stride last limit : ℕ} (hval : val ≠ []) (i : ℕ) :
    (∃ a ∈ (compareFrom mess val stride p last i).2, limit ≤ a) ↔
      ∃ k, i + k * (stride + 1) ≤ last ∧
        (∀ j < k, bytesAt mess (p + (i + j * (stride + 1))) val.length ≠ val) ∧
          limit < p + (i + k * (stride + 1)) + val.length := by
  have hpos : 0 < val.length := List.length_pos_of_ne_nil hval
  have hhere : ∀ i, (∃ a ∈ List.range' (p + i) val.length, limit ≤ a) ↔
    limit < p + i + val.length := by
    intro i
    simp only [mem_bytes]
    exact ⟨fun ⟨a, ha, hle⟩ ↦ by omega, fun h ↦ ⟨p + i + val.length - 1, by omega, by omega⟩⟩
  induction i using compareFrom.induct mess val stride p last with
  | case1 i hi hmatch =>
    rw [compareFrom, if_pos hi, if_pos hmatch]
    refine (hhere i).trans ⟨fun h ↦ ⟨0, by simpa using hi, by simp, by simpa using h⟩, ?_⟩
    rintro ⟨k, _, hbefore, hreach⟩
    cases k with
    | zero => simpa using hreach
    | succ k => exact absurd hmatch (by simpa using hbefore 0 (Nat.succ_pos k))
  | case2 i hi hdiffers ih =>
    rw [compareFrom, if_pos hi, if_neg hdiffers]
    have hplace : ∀ k, i + (k + 1) * (stride + 1) = i + (stride + 1) + k * (stride + 1) := by
      intro k
      rw [Nat.succ_mul]
      omega
    simp only [List.mem_append, or_and_right, exists_or]
    refine (or_congr (hhere i) ih).trans ?_
    constructor
    · rintro (h | ⟨k, hk, hbefore, hreach⟩)
      · exact ⟨0, by simpa using hi, by simp, by simpa using h⟩
      · refine ⟨k + 1, by rw [hplace]; exact hk, fun j hj ↦ ?_, by rw [hplace]; exact hreach⟩
        cases j with
        | zero => simpa using hdiffers
        | succ j =>
          rw [hplace]
          exact hbefore j (by omega)
    · rintro ⟨k, hk, hbefore, hreach⟩
      cases k with
      | zero => exact .inl (by simpa using hreach)
      | succ k =>
        rw [hplace] at hk hreach
        exact .inr ⟨k, hk, fun j hj ↦ hplace j ▸ hbefore (j + 1) (by omega), hreach⟩
  | case3 i hi =>
    rw [compareFrom, if_neg hi]
    refine ⟨fun ⟨_, ha, _⟩ ↦ absurd ha List.not_mem_nil, fun ⟨k, hk, _⟩ ↦ ?_⟩
    omega

theorem lt_of_mem_compareFrom {stride i : ℕ} (hval : val.length ≤ len)
    (ha : a ∈ (compareFrom mess val stride p (len - val.length) i).2) : a < p + len := by
  have hhere : ∀ {i}, i ≤ len - val.length → a ∈ List.range' (p + i) val.length → a < p + len := by
    intro i hi ha
    rw [mem_bytes] at ha
    omega
  induction i using compareFrom.induct mess val stride p (len - val.length) with
  | case1 i hi hmatch =>
    rw [compareFrom, if_pos hi, if_pos hmatch] at ha
    exact hhere hi ha
  | case2 i hi hdiffers ih =>
    rw [compareFrom, if_pos hi, if_neg hdiffers] at ha
    rcases List.mem_append.mp ha with ha | ha
    · exact hhere hi ha
    · exact ih ha
  | case3 i hi =>
    rw [compareFrom, if_neg hi] at ha
    exact absurd ha List.not_mem_nil

def Unmasked (n mask i : ℕ) : Prop := i < n ∧ mask.testBit (n - 1 - i) = false

theorem unmasked_succ_iff {n mask i : ℕ} :
    Unmasked (n + 1) mask i ↔ i = n ∧ mask % 2 = 0 ∨ Unmasked n (mask / 2) i := by
  unfold Unmasked
  rcases Nat.lt_trichotomy i n with hi | rfl | hi
  · have hbit : n + 1 - 1 - i = n - 1 - i + 1 := by omega
    rw [hbit, Nat.testBit_add_one]
    simp [hi, Nat.lt_succ_of_lt hi, Nat.ne_of_lt hi]
  · simp
  · have : ¬ i < n + 1 := by omega
    simp [this, Nat.not_lt_of_gt hi, Nat.ne_of_gt hi]

theorem memcmpMaskedAt_reaches_iff {limit : ℕ} (n : ℕ) : ∀ mask,
    (∃ a ∈ (memcmpMaskedAt mess val p n mask).2, limit ≤ a) ↔
    ∃ i, Unmasked n mask i ∧ limit ≤ p + i := by
  induction n with
  | zero =>
    intro mask
    simp [memcmpMaskedAt, Unmasked]
  | succ n ih =>
    intro mask
    rw [memcmpMaskedAt]
    split
    · rename_i hmask
      simp only [unmasked_succ_iff, hmask, and_true]
      split
      · simp only [List.mem_cons, ih, or_and_right, exists_or, exists_eq_left]
      · simp only [List.mem_singleton, exists_eq_left]
        refine ⟨fun h ↦ ⟨n, .inl rfl, h⟩, ?_⟩
        rintro ⟨i, rfl | hi, h⟩
        · exact h
        · have := hi.1
          omega
    · rename_i hmask
      simp only [unmasked_succ_iff, hmask, and_false, false_or, ih]

/-- `match_bytes` comes to a byte from `limit` on. -/
def MatchReaches (mess : Received) (o : MatchOpt) (p len limit : ℕ) : Prop :=
  o.val ≠ [] ∧ o.val.length ≤ len ∧
    if o.hex then ∃ i, Unmasked o.val.length o.u.toNat i ∧ limit ≤ p + i
    else
      let stride := if o.string then 0 else o.val.length - 1
      ∃ k, k * (stride + 1) ≤ len - o.val.length ∧
        (∀ j < k, bytesAt mess (p + j * (stride + 1)) o.val.length ≠ o.val) ∧
          limit < p + k * (stride + 1) + o.val.length

theorem matchBytes_reaches_iff {o : MatchOpt} {limit : ℕ} :
    (∃ a ∈ (matchBytes mess o p len).2, limit ≤ a) ↔ MatchReaches mess o p len limit := by
  unfold matchBytes MatchReaches
  by_cases hlen : len < o.val.length
  · simp [hlen, Nat.not_le.mpr hlen]
  · rw [if_neg hlen]
    by_cases hval : o.val = []
    · simp [hval]
    · have hpos := List.length_pos_of_ne_nil hval
      rw [if_neg (by omega)]
      by_cases hhex : o.hex
      · simp only [hhex, if_true, memcmpMaskedAt_reaches_iff, hval, Nat.not_lt.mp hlen, ne_eq,
          not_false_eq_true, true_and]
      · simp only [hhex, if_false, Bool.false_eq_true, compareFrom_reaches_iff hval,
          Nat.zero_add, hval, Nat.not_lt.mp hlen, ne_eq, not_false_eq_true, true_and]

theorem lt_of_mem_matchBytes {o : MatchOpt} (ha : a ∈ (matchBytes mess o p len).2) :
    a < p + len := by
  by_contra hle
  obtain ⟨_, hlen, hreach⟩ := matchBytes_reaches_iff.mp ⟨a, ha, Nat.not_lt.mp hle⟩
  split at hreach
  · obtain ⟨i, hi, hreach⟩ := hreach
    have := hi.1
    omega
  · obtain ⟨k, hk, _, hreach⟩ := hreach
    omega

/-! ### Options with entries -/

def entryLen (mess : Received) (opt offset : ℕ) : ℕ := optionUint mess opt (offset + 4) 1

def brdbandForumIana : ℕ := 3561

/-- The walk to the entry of the broadband forum. The option has five bytes at least. -/
def forumWalk (mess : Received) (opt offset : ℕ) : Option ℕ × List ℕ :=
  if offset < mess.optionLen opt - 5 then
    let reads := optionPtr opt (offset + 4) :: List.range' (optionPtr opt offset) 4
    if optionUint mess opt offset 4 = brdbandForumIana then (some offset, reads)
    else
      let rest := forumWalk mess opt (offset + (entryLen mess opt offset + 5))
      (rest.1, reads ++ rest.2)
  else (none, [])
termination_by mess.optionLen opt - offset

/-- Entries one after the other, up to the first that matches. Every entry is longer than what its
length says. -/
def entryWalk (entry : ℕ → Bool × List ℕ) (len : ℕ → ℕ) (stop offset : ℕ) : Bool × List ℕ :=
  if offset < stop then
    if (entry offset).1 then entry offset
    else
      let rest := entryWalk entry len stop (offset + (len offset + 1))
      (rest.1, (entry offset).2 ++ rest.2)
  else (false, [])
termination_by stop - offset

/-- A class with its length, which is looked at if it is in the option. -/
def classEntry (mess : Received) (opt : ℕ) (o : MatchOpt) (o2 : ℕ) : Bool × List ℕ :=
  if o2 + optionUint mess opt o2 1 + 1 ≤ mess.optionLen opt then
    ((matchBytes mess o (optionPtr opt (o2 + 1)) (optionUint mess opt o2 1)).1,
      optionPtr opt o2 :: (matchBytes mess o (optionPtr opt (o2 + 1)) (optionUint mess opt o2 1)).2)
  else (false, [optionPtr opt o2])

def classWalk (mess : Received) (opt : ℕ) (o : MatchOpt) (stop o2 : ℕ) : Bool × List ℕ :=
  entryWalk (classEntry mess opt o) (fun o2 ↦ optionUint mess opt o2 1) stop o2

/-- An entry, which is looked at if it is in the option and has the enterprise. -/
def identEntry (mess : Received) (opt : ℕ) (o : MatchOpt) (offset : ℕ) : Bool × List ℕ :=
  if offset + entryLen mess opt offset + 5 ≤ mess.optionLen opt then
    if optionUint mess opt offset 4 = o.u.toNat then
      ((classWalk mess opt o (offset + entryLen mess opt offset + 5) (offset + 5)).1,
        optionPtr opt (offset + 4) :: (List.range' (optionPtr opt offset) 4 ++
          (classWalk mess opt o (offset + entryLen mess opt offset + 5) (offset + 5)).2))
    else (false, optionPtr opt (offset + 4) :: List.range' (optionPtr opt offset) 4)
  else (false, [optionPtr opt (offset + 4)])

/-- The walk over the entries of a vendor-identifying option, which has five bytes at least. -/
def identWalk (mess : Received) (opt : ℕ) (o : MatchOpt) : Bool × List ℕ :=
  entryWalk (identEntry mess opt o) (fun offset ↦ entryLen mess opt offset + 4)
    (mess.optionLen opt - 5) 0

inductive ForumAt (mess : Received) (opt : ℕ) : ℕ → ℕ → Prop
  | here {offset : ℕ} (hinside : offset < mess.optionLen opt - 5)
      (hforum : optionUint mess opt offset 4 = brdbandForumIana) : ForumAt mess opt offset offset
  | next {offset entry : ℕ} (hinside : offset < mess.optionLen opt - 5)
      (hother : optionUint mess opt offset 4 ≠ brdbandForumIana)
      (hrest : ForumAt mess opt (offset + (entryLen mess opt offset + 5)) entry) :
        ForumAt mess opt offset entry

section Walks

variable {o : MatchOpt} {offset entry stop o2 : ℕ}

theorem forumWalk_eq_some_iff :
    (forumWalk mess opt offset).1 = some entry ↔ ForumAt mess opt offset entry := by
  induction offset using forumWalk.induct mess opt with
  | case1 offset hinside hforum =>
    rw [forumWalk, if_pos hinside, if_pos hforum]
    constructor
    · rintro ⟨⟩
      exact .here hinside hforum
    · intro h
      cases h with
      | here => rfl
      | next _ hother => exact absurd hforum hother
  | case2 offset hinside hother ih =>
    rw [forumWalk, if_pos hinside, if_neg hother]
    refine ih.trans ⟨.next hinside hother, fun h ↦ ?_⟩
    cases h with
    | here _ hforum => exact absurd hforum hother
    | next _ _ hrest => exact hrest
  | case3 offset hbehind =>
    rw [forumWalk, if_neg hbehind]
    refine ⟨fun h ↦ (nomatch h), fun h ↦ ?_⟩
    cases h with
    | here hinside => exact absurd hinside hbehind
    | next hinside => exact absurd hinside hbehind

theorem lt_of_mem_head (hinside : offset < mess.optionLen opt - 5)
    (ha : a = optionPtr opt (offset + 4) ∨ a ∈ List.range' (optionPtr opt offset) 4) :
    a < optionPtr opt (mess.optionLen opt) := by
  rw [mem_bytes] at ha
  unfold optionPtr at *
  omega

theorem lt_of_mem_forumWalk (ha : a ∈ (forumWalk mess opt offset).2) :
    a < optionPtr opt (mess.optionLen opt) := by
  induction offset using forumWalk.induct mess opt with
  | case1 offset hinside hforum =>
    rw [forumWalk, if_pos hinside, if_pos hforum] at ha
    exact lt_of_mem_head hinside (List.mem_cons.mp ha)
  | case2 offset hinside hother ih =>
    rw [forumWalk, if_pos hinside, if_neg hother] at ha
    rcases List.mem_append.mp ha with ha | ha
    · exact lt_of_mem_head hinside (List.mem_cons.mp ha)
    · exact ih ha
  | case3 offset hbehind =>
    rw [forumWalk, if_neg hbehind] at ha
    exact absurd ha List.not_mem_nil

theorem forall_mem_entryWalk {entry : ℕ → Bool × List ℕ} {len : ℕ → ℕ} {P : ℕ → Prop}
    (hentry : ∀ offset < stop, ∀ a ∈ (entry offset).2, P a) :
    ∀ a ∈ (entryWalk entry len stop offset).2, P a := by
  induction offset using entryWalk.induct entry len stop with
  | case1 offset hinside hmatch =>
    rw [entryWalk, if_pos hinside, if_pos hmatch]
    exact hentry offset hinside
  | case2 offset hinside hmatch ih =>
    rw [entryWalk, if_pos hinside, if_neg hmatch]
    exact List.forall_mem_append.mpr ⟨hentry offset hinside, ih⟩
  | case3 offset hbehind =>
    rw [entryWalk, if_neg hbehind]
    exact fun a ha ↦ absurd ha List.not_mem_nil

/-- A class that begins in the option is read in the option: one that says to be longer is not
looked at. -/
theorem lt_of_mem_classEntry (ho2 : o2 < mess.optionLen opt)
    (ha : a ∈ (classEntry mess opt o o2).2) : a < optionPtr opt (mess.optionLen opt) := by
  have hcount : optionPtr opt o2 < optionPtr opt (mess.optionLen opt) := Nat.add_lt_add_left ho2 _
  unfold classEntry at ha
  split at ha
  · rcases List.mem_cons.mp ha with rfl | ha
    · exact hcount
    · have := lt_of_mem_matchBytes ha
      unfold optionPtr at *
      omega
  · rw [List.mem_singleton.mp ha]
    exact hcount

theorem lt_of_mem_identEntry (hinside : offset < mess.optionLen opt - 5)
    (ha : a ∈ (identEntry mess opt o offset).2) : a < optionPtr opt (mess.optionLen opt) := by
  unfold identEntry at ha
  split at ha
  · split at ha
    · rcases List.mem_cons.mp ha with ha | ha
      · exact lt_of_mem_head hinside (.inl ha)
      · rcases List.mem_append.mp ha with ha | ha
        · exact lt_of_mem_head hinside (.inr ha)
        · exact forall_mem_entryWalk (fun o2 ho2 a ha ↦ lt_of_mem_classEntry (by omega) ha) a ha
    · exact lt_of_mem_head hinside (List.mem_cons.mp ha)
  · exact lt_of_mem_head hinside (.inl (List.mem_singleton.mp ha))

theorem lt_of_mem_identWalk (ha : a ∈ (identWalk mess opt o).2) :
    a < optionPtr opt (mess.optionLen opt) :=
  forall_mem_entryWalk (fun _ hinside _ ha ↦ lt_of_mem_identEntry hinside ha) a ha

end Walks

/-! ### Names and classes -/

/-- The labels of a name, with the bytes that are copied. -/
def fqdnLabelReads (mess : Received) (pp len op : ℕ) : List ℕ :=
  if mess op ≠ 0 ∧ op + (mess op).toNat + 1 - pp < len then
    op :: (List.range' (op + 1) (mess op).toNat ++ fqdnLabelReads mess pp len
      (op + ((mess op).toNat + 1)))
  else [op]
termination_by pp + len - op

/-- The name behind the flags and two bytes, as labels or as a text. -/
def fqdnReads (mess : Received) (opt : ℕ) : List ℕ :=
  let op := optionPtr opt 3
  let len := mess.optionLen opt - 3
  optionPtr opt 0 :: if mess (optionPtr opt 0) &&& 4 ≠ 0 then fqdnLabelReads mess op len op
    else List.range' op len

def classCounts (mess : Received) (ucp len j : ℕ) : ℕ × List ℕ :=
  if j < len then
    let rest := classCounts mess ucp len (j + ((mess (ucp + j)).toNat + 1))
    (rest.1, (ucp + j) :: rest.2)
  else (j, [])
termination_by len - j

def zeroCounts (mess : Received) (ucp len j : ℕ) : Received × List ℕ :=
  if j < len then
    let tmp := j + ((mess (ucp + j)).toNat + 1)
    let rest := zeroCounts (Function.update mess (ucp + j) 0) ucp len tmp
    (rest.1, (ucp + j) :: rest.2)
  else (mess, [])
termination_by len - j

/-- The user classes: if the counts fit the length of the option they are replaced. -/
def userClassReads (mess : Received) (opt : ℕ) : List ℕ :=
  let ucp := optionPtr opt 0
  let len := mess.optionLen opt
  let counts := classCounts mess ucp len 0
  counts.2 ++ if counts.1 = len then (zeroCounts mess ucp len 0).2 else []

theorem lt_of_mem_fqdnLabelReads {pp op : ℕ} (hop : pp ≤ op ∧ op < pp + len)
    (ha : a ∈ fqdnLabelReads mess pp len op) : a < pp + len := by
  induction op using fqdnLabelReads.induct mess pp len with
  | case1 op hnext ih =>
    rw [fqdnLabelReads, if_pos hnext] at ha
    rcases List.mem_cons.mp ha with rfl | ha
    · exact hop.2
    · rcases List.mem_append.mp ha with ha | ha
      · rw [mem_bytes] at ha
        omega
      · exact ih (by omega) ha
  | case2 op hlast =>
    rw [fqdnLabelReads, if_neg hlast] at ha
    rw [List.mem_singleton.mp ha]
    exact hop.2

theorem lt_of_mem_fqdnReads (hlen : 4 ≤ mess.optionLen opt) (ha : a ∈ fqdnReads mess opt) :
    a < optionPtr opt (mess.optionLen opt) := by
  have hname : optionPtr opt 3 + (mess.optionLen opt - 3) = optionPtr opt (mess.optionLen opt) := by
    unfold optionPtr
    omega
  rcases List.mem_cons.mp ha with rfl | ha
  · unfold optionPtr
    omega
  · rw [← hname]
    split at ha
    · exact lt_of_mem_fqdnLabelReads (by omega) ha
    · exact (mem_bytes.mp ha).2

theorem lt_of_mem_classCounts {ucp j : ℕ} (ha : a ∈ (classCounts mess ucp len j).2) :
    a < ucp + len := by
  induction j using classCounts.induct mess ucp len with
  | case1 j hinside ih =>
    rw [classCounts, if_pos hinside] at ha
    rcases List.mem_cons.mp ha with rfl | ha
    · omega
    · exact ih ha
  | case2 j hbehind =>
    rw [classCounts, if_neg hbehind] at ha
    exact absurd ha List.not_mem_nil

theorem lt_of_mem_zeroCounts {ucp j : ℕ} (ha : a ∈ (zeroCounts mess ucp len j).2) :
    a < ucp + len := by
  induction mess, j using zeroCounts.induct ucp len with
  | case1 mess j hinside tmp ih =>
    rw [zeroCounts, if_pos hinside] at ha
    rcases List.mem_cons.mp ha with rfl | ha
    · omega
    · exact ih ha
  | case2 mess j hbehind =>
    rw [zeroCounts, if_neg hbehind] at ha
    exact absurd ha List.not_mem_nil

theorem lt_of_mem_userClassReads (ha : a ∈ userClassReads mess opt) :
    a < optionPtr opt (mess.optionLen opt) := by
  have hend : optionPtr opt 0 + mess.optionLen opt = optionPtr opt (mess.optionLen opt) := rfl
  rw [← hend]
  rcases List.mem_append.mp ha with ha | ha
  · exact lt_of_mem_classCounts ha
  · split at ha
    · exact lt_of_mem_zeroCounts ha
    · exact absurd ha List.not_mem_nil

end CrossBreeder.Dnsmasq
