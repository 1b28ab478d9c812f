import CrossBreeder.Dnrd.MasterAnswers

/-!
# How large the answers of the master get

The size of an answer is a sum over the records that the database has for the question
(`length_of_assembled`), and it fits the buffers if and only if this sum does
(`masterReply_fits_iff`). The name servers of a domain are a line of the configuration, and forty of
them are too many (`fortyServers_overflow`).
-/

namespace CrossBreeder.Dnrd

open Foundation

/-! ### Sizes -/

/-- The bytes of a name: a length byte in front of each label up to the first empty one, and the
root. -/
def encodedSize (name : List UInt8) : ℕ :=
  (((name.splitOn 46).takeWhile (· ≠ [])).map fun label ↦ label.length + 1).sum + 1

/-- The bytes of the authority section: the first owner name is written out, the others point to it.
-/
def authoritySize : List (List UInt8 × List UInt8) → ℕ
  | [] => 0
  | first :: rest => encodedSize first.1 + 10 + encodedSize first.2 + (rest.map fun record ↦
    12 + encodedSize record.2).sum

/-- The bytes of an answer: the header, the question, and the records. -/
def replySize (query : Rr) (answer : Answer) : ℕ :=
  packetDatabegin + (encodedSize query.name + 4) + (answer.answers.map fun record ↦
    12 + record.2.elim 4 encodedSize).sum + authoritySize answer.authorities

def msgSize : ℕ := udpMaxsize + 4

theorem length_compileName_eq (name : List UInt8) :
    (compileName name).length = encodedSize name := by
  unfold compileName encodedSize
  rw [List.length_append, List.length_flatMap]
  simp

theorem length_authoritySection (order : ByteOrder) (offset : ℕ)
    (records : List (List UInt8 × List UInt8)) :
    (authoritySection order offset records).length = authoritySize records := by
  cases records with
  | nil => rfl
  | cons first rest =>
    have hrest :
      (rest.map fun record ↦ (authorityBytes order (compileNamepointer offset) record).length) =
        rest.map fun record ↦ 12 + encodedSize record.2 := by
      refine List.map_congr_left fun record _ ↦ ?_
      rw [authorityBytes, length_compileRecord, length_compileName_eq]
      rfl
    simp only [authoritySection, authoritySize, List.length_append, List.length_flatMap]
    rw [hrest, authorityBytes, length_compileRecord, length_compileName_eq, length_compileName_eq]

theorem length_of_assembled {order : ByteOrder} {query : Rr} {answer : Answer} {packet : Packet}
    (h : Assembled order query answer packet) : packet.length = replySize query answer := by
  obtain ⟨flags, rendered, hrendered, rfl⟩ := h
  have hanswers : (rendered.map fun one ↦ (answerBytes order one).length) =
      rendered.map fun one ↦ 12 + one.record.2.elim 4 encodedSize := by
    refine List.map_congr_left fun one _ ↦ ?_
    rw [answerBytes, length_compileRecord, one.size]
    cases one.record.2 with
    | none => rfl
    | some target =>
      rw [Option.elim_some, Option.elim_some, length_compileName_eq]
      rfl
  have hheader : (headerBytes flags answer).length = 10 := rfl
  simp only [List.length_append, hheader, leadingBytes, questionBytes, length_authoritySection,
    length_compileName_eq, length_compileInt, List.length_flatMap, hanswers]
  unfold replySize packetDatabegin
  rw [← hrendered, List.map_map]
  simp only [Function.comp_def, List.length_cons, List.length_nil]
  omega

theorem length_dontknow (query : Rr) (u : ℕ) :
    (endAssembly { beginAssembly query with u := u }).length = replySize query ⟨[], []⟩ := by
  unfold endAssembly beginAssembly replySize packetDatabegin
  simp only [List.length_append, length_compileInt, length_compileName_eq, List.length_cons,
    List.length_nil, List.map_nil, List.sum_nil, authoritySize]
  omega

/-! ### When the answers fit -/

theorem isSome_masterAnswer (order : ByteOrder) (db : List DnsRecord) (query : Rr) :
    (masterAnswer order db query).isSome = (describe db query).isSome := by
  have hnegative : (negativeAnswer db query).isSome = (describeNegative db query).isSome := by
    unfold negativeAnswer describeNegative
    cases query.name.dropWhile (· ≠ 46) with
    | nil => rfl
    | cons first domain =>
      dsimp only
      split_ifs <;> rfl
  unfold masterAnswer describe
  split_ifs
  · rfl
  · dsimp only
    split_ifs
    · rfl
    · cases ptrLookup db (query.name.take (query.name.length - arpadomain.length)) with
      | some _ => rfl
      | none => exact hnegative
  · cases nameLookup db query.name with
    | some _ => rfl
    | none => exact hnegative
  · cases dnsLookups db query.name with
    | cons _ _ => rfl
    | nil => exact hnegative
  · rfl

/-- An answer of the master fits the buffer where it is assembled and the one it is copied to. -/
def Fits (packet : Packet) : Prop := packet.length ≤ packetAssemblysize ∧ packet.length ≤ msgSize

theorem fits_iff (packet : Packet) : Fits packet ↔ packet.length ≤ msgSize := by
  unfold Fits packetAssemblysize msgSize udpMaxsize
  omega

/-- The answers to a packet fit if and only if the question does, and the records for it with it. -/
theorem masterReply_fits_iff (cfg : Config) (db : List DnsRecord) (stack : List UInt8)
    (msg : Packet) :
    (∀ packet, masterLookup cfg db stack msg = some packet ∨
      masterDontknow cfg stack msg = some packet → Fits packet) ↔
    (cfg.masterOnoff = true → ∀ query, parseQuery cfg.order stack msg = some query →
      query.cls = dnsClassInet → getOpcode query.flags = 0 → replySize query ⟨[], []⟩ ≤ msgSize ∧
        ∀ answer, describe db query = some answer → replySize query answer ≤ msgSize) := by
  by_cases hon : cfg.masterOnoff = true
  swap
  · have hoff : cfg.masterOnoff = false := by simpa using hon
    simp [masterLookup, masterDontknow, hoff]
  cases hparse : parseQuery cfg.order stack msg with
  | none => simp [masterLookup, masterDontknow, hparse]
  | some query =>
    have hlookup : masterLookup cfg db stack msg = masterAnswer cfg.order db query := by
      simp [masterLookup, hon, hparse]
    by_cases hstandard : query.cls ≠ dnsClassInet ∨ getOpcode query.flags ≠ 0
    · have hnone : masterAnswer cfg.order db query = none := if_pos hstandard
      have hdontknow : masterDontknow cfg stack msg = none := by
        unfold masterDontknow
        rw [if_neg (by simp [hon]), hparse]
        exact if_pos hstandard
      rw [hlookup, hnone, hdontknow]
      refine ⟨fun _ _ other hother hcls hopcode ↦ ?_, fun _ packet h ↦ absurd h (by simp)⟩
      obtain rfl := Option.some.inj hother
      exact absurd hstandard (by simp [hcls, hopcode])
    have hdontknow : masterDontknow cfg stack msg =
        some (endAssembly { beginAssembly query with u := (beginAssembly query).u ||| 1 }) := by
      unfold masterDontknow
      rw [if_neg (by simp [hon]), hparse]
      exact if_neg hstandard
    obtain ⟨hcls, hopcode⟩ : query.cls = dnsClassInet ∧ getOpcode query.flags = 0 := by
      simpa only [not_or, not_not] using hstandard
    rw [hlookup, hdontknow]
    simp only [fits_iff]
    constructor
    · intro hfits _ other hother _ _
      obtain rfl := Option.some.inj hother
      refine ⟨?_, fun answer hanswer ↦ ?_⟩
      · rw [← length_dontknow query]
        exact hfits _ (.inr rfl)
      · obtain ⟨packet, hpacket⟩ := Option.isSome_iff_exists.mp
          ((isSome_masterAnswer cfg.order db query).trans (by rw [hanswer]; rfl))
        rw [← length_of_assembled (assembled_of_masterAnswer hpacket hanswer)]
        exact hfits packet (.inl hpacket)
    · intro hsizes packet hpacket
      obtain ⟨hquestion, hrecords⟩ := hsizes hon query rfl hcls hopcode
      rcases hpacket with hpacket | hpacket
      · obtain ⟨answer, hanswer⟩ := Option.isSome_iff_exists.mp
          ((isSome_masterAnswer cfg.order db query).symm.trans (by rw [hpacket]; rfl))
        rw [length_of_assembled (assembled_of_masterAnswer hpacket hanswer)]
        exact hrecords answer hanswer
      · obtain rfl := Option.some.inj hpacket
        rw [length_dontknow]
        exact hquestion

/-- A configuration of the line `domain lan` with a number of name servers `n`. -/
def serversFile (count : ℕ) (filename : List UInt8) : Option (List UInt8) :=
  if filename = [109] then
    some ([100, 111, 109, 97, 105, 110, 32, 108, 97, 110] ++
      (List.replicate count [32, 110]).flatten ++ [10])
  else none

def serversDatabase (count : ℕ) : List DnsRecord := masterInit sampleAton (serversFile count) []
    [109] []

/-- A query for the name servers of `lan`. -/
def serversRequest : Packet := [0, 7, 1, 0, 0, 1, 0, 0, 0, 0, 0, 0, 3, 108, 97, 110, 0, 0, 2, 0, 1]

/-- The answer with forty name servers has 781 bytes. -/
theorem fortyServers_overflow :
    ¬∀ (cfg : Config) (db : List DnsRecord) (stack : List UInt8)
    (msg : Packet), msg.length ≤ udpMaxsize →
      ∀ packet, masterLookup cfg db stack msg = some packet ∨
      masterDontknow cfg stack msg = some packet →
        Fits packet := by
  intro hclaim
  have hlength : (masterLookup defaultConfig (serversDatabase 40) [] serversRequest).map
    List.length = some 781 := by
    decide +kernel
  obtain ⟨packet, hpacket, hsize⟩ := Option.map_eq_some_iff.mp hlength
  have hfits :=
    hclaim defaultConfig (serversDatabase 40) [] serversRequest (by decide) packet (.inl hpacket)
  rw [fits_iff, hsize] at hfits
  exact absurd hfits (by decide)

end CrossBreeder.Dnrd
