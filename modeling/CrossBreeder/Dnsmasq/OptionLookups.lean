import CrossBreeder.Dnsmasq.OptionUses

/-!
# The lookups of a DHCP request

The lookups that `dhcp_reply` makes, with what they read: in the packet, and for a search among
sub-options in the option that they are in. `option_find1` tests `p > end` where `p >= end` is
meant, so that a lookup reads the byte behind the packet if pads and options fill it, and a search
among sub-options the byte behind the option; the search in the entry of the broadband forum goes as
far as the length of the entry says.
-/

namespace CrossBreeder.Dnsmasq

variable {mess : Received} {size stop opt minsize p limit a : ℕ}

/-! ### What is read -/

/-- An offset that is read, in the packet or in the search among the sub-options of an option with
its end. -/
inductive OptionAccess
  | packet (a : ℕ)
  | inOption (opt stop a : ℕ)

def OptionAccess.Allowed (size : ℕ) : OptionAccess → Prop
  | packet a => a < size
  | inOption opt stop a => opt ≤ a ∧ a < stop ∧ a < size

@[simp] theorem allowed_packet : (OptionAccess.packet a).Allowed size ↔ a < size := Iff.rfl

def optionStop (mess : Received) (opt : ℕ) : ℕ := optionPtr opt (mess.optionLen opt)

/-- A search that goes up to `stop` comes to a byte from `limit` on: pads and options lead there, or
to the byte before if that is the first of an option. -/
def SearchLeaves (mess : Received) (stop opt minsize p limit : ℕ) : Prop :=
  ∃ q, OptionsPassed mess opt minsize p q ∧ q ≤ stop ∧
    (limit ≤ q ∨ limit = q + 1 ∧ mess q ≠ optionEnd ∧ mess q ≠ optionPad ∧ q + 2 ≤ stop)

theorem searchLeaves_iff : SearchLeaves mess stop opt minsize p limit ↔
    ∃ a ∈ (optionFind1 mess stop opt minsize p).2, limit ≤ a := by
  simp only [mem_optionFind1_iff, Reads, ReadAt]
  constructor
  · rintro ⟨q, hpassed, hq, h | ⟨rfl, hend, hpad, hle⟩⟩
    · exact ⟨q, ⟨q, hpassed, hq, .inl rfl⟩, h⟩
    · exact ⟨q + 1, ⟨q, hpassed, hq, .inr ⟨rfl, hend, hpad, hle⟩⟩, Nat.le_refl _⟩
  · rintro ⟨a, ⟨q, hpassed, hq, rfl | ⟨rfl, hend, hpad, hle⟩⟩, h⟩
    · exact ⟨a, hpassed, hq, .inl h⟩
    · rcases Nat.lt_or_ge q limit with hlt | hge
      · exact ⟨q, hpassed, hq, .inr ⟨by omega, hend, hpad, hle⟩⟩
      · exact ⟨q, hpassed, hq, .inl hge⟩

inductive Use
  /-- `option_uint`, `option_addr` or a copy of so many bytes. -/
  | value (offset size : ℕ)
  /-- All the data. -/
  | whole
  /-- The option itself with its data. -/
  | copied
  | fqdn
  | identifies (o : MatchOpt)
  | matchesBytes (o : MatchOpt)
  | userClass
  /-- The bytes are looked for at every place. -/
  | contains (data : List UInt8)
  | forum

/-- The offsets that the search for the broadband forum reads: the walk, and then its three
sub-options up to where the length of the entry says. -/
def forumAccesses (mess : Received) (opt : ℕ) : List OptionAccess :=
  (forumWalk mess opt 0).2.map .packet ++
    match (forumWalk mess opt 0).1 with
    | none => []
    | some entry => [1, 2, 3].flatMap fun sub ↦
      (optionFind1 mess (optionPtr opt (entry + entryLen mess opt entry + 5)) sub 1
        (optionPtr opt (entry + 5))).2.map (.inOption opt (optionStop mess opt))

/-- The offsets behind the type that a use reads, the length first. -/
def Use.accesses (mess : Received) (opt : ℕ) : Use → List OptionAccess
  | value offset size => (List.range' (optionPtr opt offset) size).map .packet
  | whole => .packet (opt + 1) :: (List.range' (optionPtr opt 0) (mess.optionLen opt)).map .packet
  | copied => .packet (opt + 1) :: (List.range' opt (mess.optionLen opt + 2)).map .packet
  | fqdn => .packet (opt + 1) :: (fqdnReads mess opt).map .packet
  | identifies o => .packet (opt + 1) :: (identWalk mess opt o).2.map .packet
  | matchesBytes o =>
    .packet (opt + 1) :: (matchBytes mess o (optionPtr opt 0) (mess.optionLen opt)).2.map .packet
  | userClass => .packet (opt + 1) :: (userClassReads mess opt).map .packet
  | contains data => .packet (opt + 1) :: if data.length ≤ mess.optionLen opt then
      (compareFrom mess data 0 (optionPtr opt 0) (mess.optionLen opt - data.length) 0).2.map .packet
    else []
  | forum => .packet (opt + 1) :: forumAccesses mess opt

/-- What an option must be like for a use: not the end of the options, and long enough. -/
def Use.Fits (opt minsize : ℕ) : Use → Prop
  | value offset size => opt ≠ 255 ∧ offset + size ≤ minsize
  | fqdn => opt ≠ 255 ∧ 4 ≤ minsize
  | identifies _ | forum => opt ≠ 255 ∧ 5 ≤ minsize
  | matchesBytes _ => True
  | whole | copied | userClass | contains _ => opt ≠ 255

def ForumLeaves (mess : Received) (opt : ℕ) : Prop :=
  ∃ entry, ForumAt mess opt 0 entry ∧ ∃ sub ∈ [1, 2, 3],
    SearchLeaves mess (optionPtr opt (entry + entryLen mess opt entry + 5)) sub 1
      (optionPtr opt (entry + 5)) (optionStop mess opt)

/-- What goes wrong when an option is used. For `dhcp-match` that is only so if it asks for the end
of the options, behind which there is no length. -/
def Use.Leaves (mess : Received) (size opt : ℕ) : Use → Prop
  | matchesBytes o => size ≤ opt + 1 ∨ MatchReaches mess o (optionPtr opt 0)
    (mess.optionLen opt) size
  | forum => ForumLeaves mess opt
  | _ => False

/-- A search among the sub-options of an option that is found, with what the data of the sub-option
is compared with or as many bytes of it as are looked for. -/
structure SubSearch where
  opt : ℕ
  minsize : ℕ
  data : Option (List UInt8)
  notEnd : opt ≠ 255

namespace SubSearch

def dataLen (sub : SubSearch) (mess : Received) (sopt : ℕ) : ℕ :=
  match sub.data with
  | none => sub.minsize
  | some data => if data.length = mess.optionLen sopt then data.length else 0

def accesses (sub : SubSearch) (mess : Received) (opt : ℕ) : List OptionAccess :=
  let found := optionFind1 mess (optionStop mess opt) sub.opt sub.minsize (optionPtr opt 0)
  .packet (opt + 1) :: (found.2.map (.inOption opt (optionStop mess opt)) ++
    match found.1 with
    | none => []
    | some sopt =>
      .packet (sopt + 1) :: (List.range' (optionPtr sopt 0) (sub.dataLen mess sopt)).map .packet)

/-- The search or the data goes behind the option or the packet. -/
def Leaves (sub : SubSearch) (mess : Received) (size opt : ℕ) : Prop :=
  SearchLeaves mess (optionStop mess opt) sub.opt sub.minsize (optionPtr opt 0)
    (min size (optionStop mess opt)) ∨
    ∃ sopt, Found mess (optionStop mess opt) sub.opt sub.minsize (optionPtr opt 0) sopt ∧
      size < optionPtr sopt (sub.dataLen mess sopt)

end SubSearch

def AllAllowed (size : ℕ) (accesses : List OptionAccess) : Prop := ∀ x ∈ accesses, x.Allowed size

theorem allAllowed_append {l l' : List OptionAccess} :
    AllAllowed size (l ++ l') ↔ AllAllowed size l ∧ AllAllowed size l' := List.forall_mem_append

theorem allAllowed_cons {x : OptionAccess} {l : List OptionAccess} :
    AllAllowed size (x :: l) ↔ x.Allowed size ∧ AllAllowed size l := List.forall_mem_cons

theorem allAllowed_packet {l : List ℕ} : AllAllowed size (l.map .packet) ↔ ∀ a ∈ l, a < size :=
  List.forall_mem_map

theorem allAllowed_inOption {l : List ℕ} {first last : ℕ} :
    AllAllowed size (l.map (.inOption first last)) ↔ ∀ a ∈ l, first ≤ a ∧ a < last ∧ a < size :=
  List.forall_mem_map

theorem allAllowed_flatMap {α : Type*} {l : List α} {f : α → List OptionAccess} :
    AllAllowed size (l.flatMap f) ↔ ∀ y ∈ l, AllAllowed size (f y) := List.forall_mem_flatMap

/-- A search among sub-options that begins in the option stays in it and in the packet unless it
leaves them. -/
theorem allAllowed_search {first last : ℕ} (hfirst : first ≤ p) :
    AllAllowed size ((optionFind1 mess stop opt minsize p).2.map (.inOption first last)) ↔
      ¬ SearchLeaves mess stop opt minsize p (min size last) := by
  rw [allAllowed_inOption, searchLeaves_iff]
  simp only [not_exists, not_and, Nat.not_le]
  refine forall₂_congr fun a ha ↦ ⟨fun h ↦ by omega, fun h ↦ ⟨?_, by omega⟩⟩
  obtain ⟨q, hpassed, _, hread⟩ := mem_optionFind1_iff.mp ha
  have := hpassed.le
  rcases hread with rfl | ⟨rfl, _⟩ <;> omega

namespace Use

variable {o : ℕ}

theorem allAllowed_data {l : List ℕ} (hstop : optionStop mess o ≤ size)
    (hl : ∀ a ∈ l, a < optionStop mess o) : AllAllowed size (.packet (o + 1) :: l.map .packet) := by
  refine allAllowed_cons.mpr ⟨?_, allAllowed_packet.mpr fun a ha ↦
    Nat.lt_of_lt_of_le (hl a ha) hstop⟩
  unfold optionStop optionPtr at hstop
  exact Nat.lt_of_lt_of_le (by omega) hstop

theorem allAllowed_forum (hstop : optionStop mess o ≤ size) :
    AllAllowed size (forum.accesses mess o) ↔ ¬ ForumLeaves mess o := by
  have hwalk : AllAllowed size (.packet (o + 1) :: (forumWalk mess o 0).2.map .packet) :=
    allAllowed_data hstop fun a ha ↦ lt_of_mem_forumWalk ha
  rw [accesses, forumAccesses, ← List.cons_append, allAllowed_append, and_iff_right hwalk]
  have hmin : min size (optionStop mess o) = optionStop mess o := Nat.min_eq_right hstop
  cases hfound : (forumWalk mess o 0).1 with
  | none =>
    refine iff_of_true (fun x hx ↦ absurd hx List.not_mem_nil) ?_
    rintro ⟨entry, hentry, _⟩
    rw [forumWalk_eq_some_iff.mpr hentry] at hfound
    cases hfound
  | some entry =>
    have hentry := forumWalk_eq_some_iff.mp hfound
    have hfirst : o ≤ optionPtr o (entry + 5) := by
      unfold optionPtr
      omega
    simp only [allAllowed_flatMap, allAllowed_search hfirst, hmin]
    constructor
    · rintro h ⟨entry', hentry', sub, hsub, hleaves⟩
      obtain rfl : entry' = entry := by
        rw [forumWalk_eq_some_iff.mpr hentry'] at hfound
        exact Option.some.inj hfound
      exact h sub hsub hleaves
    · exact fun h sub hsub hleaves ↦ h ⟨entry, hentry, sub, hsub, hleaves⟩

theorem allAllowed_iff {use : Use} (hat : OptionAt mess size opt minsize o)
    (hfits : use.Fits opt minsize) :
    AllAllowed size (use.accesses mess o) ↔ ¬ use.Leaves mess size o := by
  have hstop : opt ≠ 255 → minsize ≤ mess.optionLen o ∧ optionStop mess o ≤ size := by
    intro hopt
    have := hat.data_le hopt
    unfold optionStop optionPtr
    omega
  cases use with
  | value offset n =>
    obtain ⟨hopt, hn⟩ := hfits
    obtain ⟨hlen, hstop⟩ := hstop hopt
    refine iff_of_true (allAllowed_packet.mpr fun a ha ↦ ?_) not_false
    rw [mem_bytes] at ha
    unfold optionStop optionPtr at *
    omega
  | whole =>
    obtain ⟨_, hstop⟩ := hstop hfits
    exact iff_of_true (allAllowed_data hstop fun a ha ↦ (mem_bytes.mp ha).2) not_false
  | copied =>
    obtain ⟨_, hstop⟩ := hstop hfits
    refine iff_of_true (allAllowed_data hstop fun a ha ↦ ?_) not_false
    rw [mem_bytes] at ha
    unfold optionStop optionPtr
    omega
  | fqdn =>
    obtain ⟨hopt, hmin⟩ := hfits
    obtain ⟨hlen, hstop⟩ := hstop hopt
    exact iff_of_true (allAllowed_data hstop fun a ha ↦ lt_of_mem_fqdnReads (by omega) ha) not_false
  | identifies m =>
    obtain ⟨_, hstop⟩ := hstop hfits.1
    exact iff_of_true (allAllowed_data hstop fun a ha ↦ lt_of_mem_identWalk ha) not_false
  | matchesBytes m =>
    rw [accesses, Leaves, allAllowed_cons, allAllowed_packet, ← matchBytes_reaches_iff, not_or,
      not_exists, Nat.not_le]
    simp only [OptionAccess.Allowed, not_and, Nat.not_le]
  | userClass =>
    obtain ⟨_, hstop⟩ := hstop hfits
    exact iff_of_true (allAllowed_data hstop fun a ha ↦ lt_of_mem_userClassReads ha) not_false
  | contains data =>
    obtain ⟨_, hstop⟩ := hstop hfits
    refine iff_of_true ?_ not_false
    rw [accesses]
    split
    · exact allAllowed_data hstop fun a ha ↦ lt_of_mem_compareFrom ‹_› ha
    · exact allAllowed_data hstop fun a ha ↦ absurd ha List.not_mem_nil
  | forum => exact allAllowed_forum (hstop hfits.1).2

end Use

theorem SubSearch.allAllowed_iff {sub : SubSearch} (hopt : opt + 1 < size) :
    AllAllowed size (sub.accesses mess opt) ↔ ¬ sub.Leaves mess size opt := by
  have hfirst : opt ≤ optionPtr opt 0 := by
    unfold optionPtr
    omega
  rw [accesses, allAllowed_cons, allowed_packet, and_iff_right hopt, allAllowed_append,
    allAllowed_search hfirst, Leaves, not_or]
  refine and_congr_right fun hsearch ↦ ?_
  cases hfound : (optionFind1 mess (optionStop mess opt) sub.opt sub.minsize (optionPtr opt 0)).1
    with
  | none =>
    refine iff_of_true (fun x hx ↦ absurd hx List.not_mem_nil) ?_
    rintro ⟨sopt, hat, _⟩
    rw [optionFind1_eq_some_iff.mpr hat] at hfound
    cases hfound
  | some sopt =>
    have hat := optionFind1_eq_some_iff.mp hfound
    -- the search reads the length of the sub-option, so that it is in the packet
    have hlen : sopt + 1 < size := by
      rcases hat.wanted with ⟨_, hend⟩ | ⟨hend, hpad, _, hle⟩
      · exact absurd hend sub.notEnd
      · by_contra hge
        rw [searchLeaves_iff] at hsearch
        exact hsearch ⟨sopt + 1, mem_optionFind1_iff.mpr ⟨sopt, hat.passed, hat.inside,
          .inr ⟨rfl, hend, hpad, by omega⟩⟩, by omega⟩
    rw [allAllowed_cons, allowed_packet, and_iff_right hlen, allAllowed_packet]
    constructor
    · rintro h ⟨sopt', hat', hlt⟩
      obtain rfl := hat'.unique hat
      have hlast : size ∈ List.range' (optionPtr sopt' 0) (sub.dataLen mess sopt') := by
        rw [mem_bytes]
        unfold optionPtr at *
        omega
      exact absurd (h size hlast) (Nat.lt_irrefl size)
    · intro h a ha
      have hdata := (mem_bytes.mp ha).2
      by_contra hge
      exact h ⟨sopt, hat, Nat.lt_of_le_of_lt (Nat.not_lt.mp hge) hdata⟩

/-! ### Lookups -/

/-- A call of `option_find`, what is done at once with the option, and the sub-options that are
looked for in it. -/
structure OptionLookup where
  opt : ℕ
  minsize : ℕ
  uses : List Use
  subs : List SubSearch
  usesFit : ∀ use ∈ uses, use.Fits opt minsize
  subsFit : subs ≠ [] → opt ≠ 255

namespace OptionLookup

/-- What a lookup reads. -/
def accesses (lookup : OptionLookup) (mess mess' : Received) (size : ℕ) : List OptionAccess :=
  let found := optionFind mess size lookup.opt lookup.minsize
  found.2.map .packet ++
    match found.1 with
    | none => []
    | some o => lookup.uses.flatMap (Use.accesses mess o) ++
      lookup.subs.flatMap (SubSearch.accesses · mess' o)

/-- A lookup reads what it may not. -/
def RunsOver (lookup : OptionLookup) (mess mess' : Received) (size : ℕ) : Prop :=
  OptionsPassed mess lookup.opt lookup.minsize searchAt size ∨
    ∃ o, OptionAt mess size lookup.opt lookup.minsize o ∧
      ((∃ use ∈ lookup.uses, use.Leaves mess size o) ∨ ∃ sub ∈ lookup.subs, sub.Leaves mess' size o)

theorem allAllowed_iff (lookup : OptionLookup) (mess mess' : Received) (size : ℕ) :
    AllAllowed size (lookup.accesses mess mess' size) ↔ ¬ lookup.RunsOver mess mess' size := by
  rw [accesses, allAllowed_append, allAllowed_packet, optionFind_inside_iff, RunsOver, not_or]
  refine and_congr_right fun _ ↦ ?_
  cases hfound : (optionFind mess size lookup.opt lookup.minsize).1 with
  | none =>
    refine iff_of_true (fun x hx ↦ absurd hx List.not_mem_nil) ?_
    rintro ⟨o, hat, _⟩
    rw [optionFind_eq_some_iff.mpr hat] at hfound
    cases hfound
  | some o =>
    have hat := optionFind_eq_some_iff.mp hfound
    have hunique : ∀ o', OptionAt mess size lookup.opt lookup.minsize o' → o' = o := fun o' hat' ↦
      Option.some.inj ((optionFind_eq_some_iff.mpr hat').symm.trans hfound)
    have huses : AllAllowed size (lookup.uses.flatMap (Use.accesses mess o)) ↔
        ∀ use ∈ lookup.uses, ¬ use.Leaves mess size o := by
      rw [allAllowed_flatMap]
      exact forall₂_congr fun use huse ↦ Use.allAllowed_iff hat (lookup.usesFit use huse)
    have hsubs : AllAllowed size (lookup.subs.flatMap (SubSearch.accesses · mess' o)) ↔
        ∀ sub ∈ lookup.subs, ¬ sub.Leaves mess' size o := by
      rw [allAllowed_flatMap]
      refine forall₂_congr fun sub hsub ↦ SubSearch.allAllowed_iff ?_
      have := hat.data_le (lookup.subsFit (List.ne_nil_of_mem hsub))
      omega
    rw [allAllowed_append, huses, hsubs]
    constructor
    · rintro ⟨huses, hsubs⟩ ⟨o', hat', ⟨use, huse, hleaves⟩ | ⟨sub, hsub, hleaves⟩⟩
      · exact huses use huse (hunique o' hat' ▸ hleaves)
      · exact hsubs sub hsub (hunique o' hat' ▸ hleaves)
    · exact fun h ↦ ⟨fun use huse hleaves ↦ h ⟨o, hat, .inl ⟨use, huse, hleaves⟩⟩,
        fun sub hsub hleaves ↦ h ⟨o, hat, .inr ⟨sub, hsub, hleaves⟩⟩⟩

end OptionLookup

/-! ### The lookups of `dhcp_reply` -/

inductive VendorMatch
  | vendor
  | user
  | circuit
  | remote
  | subscriber
  deriving DecidableEq

structure ReplyVendor where
  matchType : VendorMatch
  data : List UInt8

structure ReplyConfig where
  vendors : List ReplyVendor
  dhcpMatch : List MatchOpt
  /-- The classes of the options that are sent to a vendor class. -/
  vendorClasses : List (List UInt8)

/-- A lookup of a number, an address or a few bytes. -/
def valueLookup (opt size : ℕ) (hopt : opt ≠ 255) : OptionLookup where
  opt := opt
  minsize := size
  uses := [.value 0 size]
  subs := []
  usesFit := by simp [Use.Fits, hopt]
  subsFit := by simp

/-- A lookup of an option that is used in ways which need no more than that it is an option. -/
def dataLookup (opt minsize : ℕ) (uses : List Use) (hfits : ∀ use ∈ uses, use.Fits opt minsize) :
    OptionLookup where
  opt := opt
  minsize := minsize
  uses := uses
  subs := []
  usesFit := hfits
  subsFit := by simp

def subValue (opt size : ℕ) (hopt : opt ≠ 255) : SubSearch := ⟨opt, size, none, hopt⟩

def ReplyVendor.agentSearch (v : ReplyVendor) : Option SubSearch :=
  match v.matchType with
  | .circuit => some ⟨1, 1, some v.data, by decide⟩
  | .remote => some ⟨2, 1, some v.data, by decide⟩
  | .subscriber => some ⟨6, 1, some v.data, by decide⟩
  | .vendor | .user => none

/-- The option that is searched for the data of a vendor. -/
def ReplyVendor.classLookup (v : ReplyVendor) : Option OptionLookup :=
  match v.matchType with
  | .vendor => some (dataLookup 60 1 [.contains v.data] (by simp [Use.Fits]))
  | .user => some (dataLookup 77 1 [.contains v.data] (by simp [Use.Fits]))
  | .circuit | .remote | .subscriber => none

/-- The lookup of an entry of `dhcp-match`. -/
def MatchOpt.lookup (o : MatchOpt) : OptionLookup :=
  if o.rfc3925 then dataLookup 124 5 [.identifies o] (by simp [Use.Fits])
  else dataLookup o.opt 1 [.matchesBytes o] (by simp [Use.Fits])

/-- The relay agent's option, with its copy and the sub-options that are looked for in it. -/
def agentLookup (config : ReplyConfig) : OptionLookup where
  opt := 82
  minsize := 1
  uses := [.copied]
  subs := [subValue 5 4
    (by decide), subValue 11 4 (by decide)] ++ config.vendors.filterMap ReplyVendor.agentSearch
  usesFit := by simp [Use.Fits]
  subsFit := by simp

/-- The request of a PXE client for a boot item. -/
def bootItemLookup : OptionLookup where
  opt := 43
  minsize := 1
  uses := []
  subs := [subValue 71 4 (by decide)]
  usesFit := by simp
  subsFit := by simp

/-- The lookups that `dhcp_reply` makes, in the order of the source and without those that are made
again. -/
def replyLookups (config : ReplyConfig) : List OptionLookup :=
  [ -- the type of the message, the size of the answer and the requested address
    valueLookup 53 1 (by decide), valueLookup 57 2 (by decide), valueLookup 50 4 (by decide),
    dataLookup 125 5 [.forum] (by simp [Use.Fits]), agentLookup config,
    -- the end, to see if there is room behind it
    dataLookup 255 0 [] (by simp), valueLookup 118 4 (by decide),
    -- the client identifier and the names
    dataLookup 61 1 [.whole] (by simp [Use.Fits]), dataLookup 81 4 [.fqdn] (by simp [Use.Fits]),
    dataLookup 12 1 [.whole] (by simp [Use.Fits]) ] ++
  config.dhcpMatch.map MatchOpt.lookup ++
  [ dataLookup 77 1 [.userClass] (by simp [Use.Fits]) ] ++
  config.vendors.filterMap ReplyVendor.classLookup ++
  [ dataLookup 60 1 (.whole :: config.vendorClasses.map .contains) (by simp [Use.Fits]),
    dataLookup 77 1 [.whole] (by simp [Use.Fits]),
    -- PXE: the vendor class, the identifier of the machine, the boot item and the architecture
    valueLookup 60 9
      (by decide), valueLookup 97 17 (by decide), bootItemLookup, valueLookup 93 2 (by decide),
    -- the options that are asked for, the server, a message and the time of the lease
    dataLookup 55 0 [.whole] (by simp [Use.Fits]), valueLookup 54 4 (by decide),
    dataLookup 56 1 [.whole] (by simp [Use.Fits]), valueLookup 51 4 (by decide) ]

def messTypeLookup : OptionLookup := valueLookup 53 1 (by decide)
def requestedIpLookup : OptionLookup := valueLookup 50 4 (by decide)
def clientIdLookup : OptionLookup := dataLookup 61 1 [.whole] (by simp [Use.Fits])
def hostnameLookup : OptionLookup := dataLookup 12 1 [.whole] (by simp [Use.Fits])
def serverIdentifierLookup : OptionLookup := valueLookup 54 4 (by decide)
def leaseTimeLookup : OptionLookup := valueLookup 51 4 (by decide)

/-- A lookup with the bytes as they are then, and as they are when sub-options are looked for. -/
structure ReplyStep where
  lookup : OptionLookup
  mess : Received
  mess' : Received

/-- A call of `dhcp_reply` as far as it looks for options. Which lookups it makes and what it writes
to the buffer between them is left open. -/
structure ReplyCall (config : ReplyConfig) where
  steps : List ReplyStep
  made : ∀ step ∈ steps, step.lookup ∈ replyLookups config

/-- All that the lookups read is where it may be. -/
def ReplyCall.Inside {config : ReplyConfig} (size : ℕ) (call : ReplyCall config) : Prop :=
  ∀ step ∈ call.steps, AllAllowed size (step.lookup.accesses step.mess step.mess' size)

/-- The lookups of a call stay where they may exactly if none of them runs over. -/
theorem replyCall_inside_iff (config : ReplyConfig) (size : ℕ) (call : ReplyCall config) :
    call.Inside size ↔ ∀ step ∈ call.steps, ¬ step.lookup.RunsOver step.mess step.mess' size :=
  forall₂_congr fun step _ ↦ step.lookup.allAllowed_iff step.mess step.mess' size

/-- A request of an Ethernet host that ends with the cookie, in a buffer of zeros. -/
def bareRequest : Received := fun a ↦
  if a < 3 then [1, 1, 6].getD a 0 else if a < optionsAt then
    0 else [0x63, 0x82, 0x53, 0x63].getD (a - optionsAt) 0

def bareCall : ReplyCall ⟨[], [], []⟩ where
  steps := [⟨valueLookup 53 1 (by decide), bareRequest, bareRequest⟩]
  made := by simp [replyLookups]

/-- The byte behind a packet of 240 bytes is read. -/
theorem not_inside_bareCall : optionsAt ≤ searchAt ∧ ¬ bareCall.Inside searchAt := by
  refine ⟨by decide, fun h ↦ ?_⟩
  have hreads := allAllowed_append.mp (h _ (List.mem_singleton_self _))
  exact optionFind_inside_iff.mp (allAllowed_packet.mp hreads.1) (.done searchAt)

end CrossBreeder.Dnsmasq
