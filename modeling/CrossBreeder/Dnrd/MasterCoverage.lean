import CrossBreeder.Dnrd.MasterFiles
import CrossBreeder.Dnrd.PendingQueries

/-!
# The names that the master denies

A domain with authority, from `+auth` or from the blacklist: queries for names in it that the
database has no data for should be answered here. `denied_iff` says which queries are denied. A name
two labels below its domain is not, and is forwarded (`deepName_not_denied`).
-/

namespace CrossBreeder.Dnrd

open Foundation

def domainOf (name : List UInt8) : List UInt8 := (name.dropWhile (· ≠ 46)).drop 1

/-- The types that the master answers: addresses, name servers, and names of addresses. -/
def HandledType (query : Rr) : Prop :=
  query.type = dnsTypeA ∨ query.type = dnsTypeNs ∨ query.type = dnsTypePtr ∧
    arpadomain <:+ query.name

structure NoData (db : List DnsRecord) (query : Rr) : Prop where
  address : query.type = dnsTypeA → nameLookup db query.name = none
  servers : query.type = dnsTypeNs → dnsLookups db query.name = []
  pointer : query.type = dnsTypePtr →
    ptrLookup db (query.name.take (query.name.length - arpadomain.length)) = none

structure Denial (packet : Packet) : Prop where
  nonempty : 0 < packet.length
  authoritative : shortAt packet 2 &&& 0x0400 ≠ 0
  answers : shortAt packet 6 = 0

theorem denial_negative (query : Rr) : Denial (endAssembly (setAa (beginAssembly query))) where
  nonempty := by simp [endAssembly]
  authoritative := by
    simp [endAssembly, setAa, beginAssembly, compileInt, shortAt, byteAt, highByte, lowByte]
  answers := by
    simp [endAssembly, setAa, beginAssembly, compileInt, shortAt, byteAt, highByte, lowByte]

/-- The last part of `master_lookup` answers names with a dot, if there is authority for them or for
their domains. -/
theorem negativeAnswer_eq (db : List DnsRecord) (query : Rr) :
    negativeAnswer db query =
      if 46 ∈ query.name ∧
      ((authorityLookup db query.name).isSome ∨ (authorityLookup db (domainOf query.name)).isSome)
      then some (endAssembly (setAa (beginAssembly query))) else none := by
  unfold negativeAnswer domainOf
  cases hdrop : query.name.dropWhile (· ≠ 46) with
  | nil =>
    have hdot : 46 ∉ query.name := by
      have hall := List.dropWhile_eq_nil_iff.mp hdrop
      intro hmem
      simpa using hall 46 hmem
    simp [hdot]
  | cons first domain =>
    have hdot : 46 ∈ query.name := by
      by_contra hdot
      have hall : query.name.dropWhile (· ≠ 46) = [] := by
        refine List.dropWhile_eq_nil_iff.mpr fun c hc ↦ ?_
        simpa using fun heq : c = 46 ↦ hdot (heq ▸ hc)
      rw [hdrop] at hall
      exact absurd hall (by simp)
    simp [hdot]

theorem masterAnswer_noData (order : ByteOrder) {db : List DnsRecord} {query : Rr}
    (hcls : query.cls = dnsClassInet) (hopcode : getOpcode query.flags = 0)
    (hdata : NoData db query) :
    (HandledType query → masterAnswer order db query = negativeAnswer db query) ∧
      (¬HandledType query → masterAnswer order db query = none) := by
  have hstandard : ¬(query.cls ≠ dnsClassInet ∨ getOpcode query.flags ≠ 0) := by
    simp [hcls, hopcode]
  have hsuffix : arpadomain <:+ query.name ↔ ¬(query.name.length < arpadomain.length ∨
      query.name.drop (query.name.length - arpadomain.length) ≠ arpadomain) := by
    rw [List.suffix_iff_eq_drop, not_or, not_lt, not_not]
    constructor
    · intro heq
      refine ⟨?_, heq.symm⟩
      have hlength := congrArg List.length heq
      rw [List.length_drop] at hlength
      omega
    · exact fun h ↦ h.2.symm
  unfold masterAnswer
  rw [if_neg hstandard]
  by_cases hptr : query.type = dnsTypePtr
  · rw [if_pos hptr]
    have hhandled : HandledType query ↔ arpadomain <:+ query.name := by
      unfold HandledType
      simp [hptr, dnsTypePtr, dnsTypeA, dnsTypeNs]
    rw [hhandled, hsuffix]
    refine ⟨fun h ↦ ?_, fun h ↦ if_pos (not_not.mp h)⟩
    rw [if_neg h, hdata.pointer hptr]
  rw [if_neg hptr]
  by_cases ha : query.type = dnsTypeA
  · rw [if_pos ha, hdata.address ha]
    exact ⟨fun _ ↦ rfl, fun h ↦ absurd (.inl ha) h⟩
  rw [if_neg ha]
  by_cases hns : query.type = dnsTypeNs
  · rw [if_pos hns, hdata.servers hns]
    exact ⟨fun _ ↦ rfl, fun h ↦ absurd (.inr (.inl hns)) h⟩
  rw [if_neg hns]
  refine ⟨fun h ↦ ?_, fun _ ↦ rfl⟩
  rcases h with h | h | h
  · exact absurd h ha
  · exact absurd h hns
  · exact absurd h.1 hptr

/-- A name in a domain with at most one label in front of it is the domain, or the domain follows
its first label. -/
theorem eq_or_domainOf_eq {name domain : List UInt8} (hbelow : belowObject name domain = true)
    (hcount : (name.take (name.length - domain.length)).count 46 ≤ 1) :
    name = domain ∨ domainOf name = domain := by
  unfold belowObject at hbelow
  by_cases hlonger : domain.length < name.length
  · rw [if_pos hlonger] at hbelow
    obtain ⟨hdot, hdomain⟩ := of_decide_eq_true hbelow
    set k := name.length - domain.length with hk
    have hkpos : k - 1 + 1 = k := by omega
    have hlast : name.take k = name.take (k - 1) ++ [46] := by
      have hchar : name[k - 1]? = some 46 := by
        rw [List.getD_eq_getElem?_getD, List.getElem?_eq_getElem (by omega)] at hdot
        rw [List.getElem?_eq_getElem (by omega)]
        exact congrArg some hdot
      rw [← hkpos, List.take_add_one, hkpos, hchar]
      rfl
    have hlabel : 46 ∉ name.take (k - 1) := by
      rw [hlast, List.count_append] at hcount
      have hone : [46].count (46 : UInt8) = 1 := by decide
      exact List.count_eq_zero.mp (by omega)
    right
    have hname : name = name.take (k - 1) ++ 46 :: domain := by
      conv_lhs => rw [← List.take_append_drop k name, hlast, hdomain]
      simp
    unfold domainOf
    rw [hname, List.dropWhile_append_of_pos]
    · simp
    · intro c hc
      simpa using fun heq : c = 46 ↦ hlabel (heq ▸ hc)
  · rw [if_neg hlonger] at hbelow
    exact .inl (of_decide_eq_true hbelow)

/-- A standard query for a name in a domain with authority, for which there is no data, is denied
here and not forwarded, if and only if its type is handled, its name has a dot, and the name is at
most one label below the domain or there is authority for the name or its own domain besides. -/
theorem denied_iff {cfg : Config} {env : Env} {s : State} {buffer domain : List UInt8}
    {len : ℕ} {query : Rr} (hon : cfg.masterOnoff = true)
    (hquery : parseQuery cfg.order env.masterStack (buffer.take len) = some query)
    (hcls : query.cls = dnsClassInet) (hopcode : getOpcode query.flags = 0)
    (hauthority : (authorityLookup s.db domain).isSome = true)
    (hbelow : belowObject query.name domain = true) (hdata : NoData s.db query) :
    (∃ packet, masterLookup cfg s.db env.masterStack (buffer.take len) = some packet ∧
      Denial packet ∧ (handleQuery cfg env s buffer len).decision = .answer) ↔
    HandledType query ∧ 46 ∈ query.name ∧
      ((query.name.take (query.name.length - domain.length)).count 46 ≤ 1 ∨
        (authorityLookup s.db query.name).isSome = true ∨
        (authorityLookup s.db (domainOf query.name)).isSome = true) := by
  have hlookup : masterLookup cfg s.db env.masterStack (buffer.take len) =
    masterAnswer cfg.order s.db query := by
    unfold masterLookup
    rw [if_neg (by simp [hon]), hquery, Option.bind_some]
  obtain ⟨hhandled, hother⟩ := masterAnswer_noData cfg.order hcls hopcode hdata
  constructor
  · rintro ⟨packet, hpacket, -, -⟩
    rw [hlookup] at hpacket
    by_cases htype : HandledType query
    · rw [hhandled htype, negativeAnswer_eq] at hpacket
      split_ifs at hpacket with hdot
      exact ⟨htype, hdot.1, .inr hdot.2⟩
    · rw [hother htype] at hpacket
      exact absurd hpacket (by simp)
  · rintro ⟨htype, hdot, hclose⟩
    have hfound : (authorityLookup s.db query.name).isSome ∨
      (authorityLookup s.db (domainOf query.name)).isSome := by
      rcases hclose with hcount | hfound
      · rcases eq_or_domainOf_eq hbelow hcount with heq | heq
        · exact .inl (heq ▸ hauthority)
        · exact .inr (heq ▸ hauthority)
      · exact hfound
    have hanswer : masterLookup cfg s.db env.masterStack (buffer.take len) =
        some (endAssembly (setAa (beginAssembly query))) := by
      rw [hlookup, hhandled htype, negativeAnswer_eq, if_pos ⟨hdot, hfound⟩]
    refine ⟨_, hanswer, denial_negative query, ?_⟩
    unfold handleQuery
    rw [hanswer]

/-- The database of a server with the blacklist `lan` and no configuration. -/
def blacklistDatabase : List DnsRecord :=
  masterInit (fun text ↦ if text = loopback then some 0x7f000001 else none)
    (fun filename ↦ if filename = [98] then some [108, 97, 110, 10] else none) [] [] [98]

def nameRequest (name : List UInt8) : Packet :=
  [0, 7, 1, 0, 0, 1, 0, 0, 0, 0, 0, 0] ++ name ++ [0, 0, 1, 0, 1]

def blacklistRelay : State := startup [configuredDomain none false [11]] blacklistDatabase

/-- The query for `a.lan` is denied. -/
theorem denied_one_label :
    ∃ packet, masterLookup defaultConfig blacklistRelay.db []
      (nameRequest [1, 97, 3, 108, 97, 110]) = some packet ∧
      Denial packet ∧ (handleQuery defaultConfig (zeroedEnv 1000 2000 0 []) blacklistRelay
        (nameRequest [1, 97, 3, 108, 97, 110]) 23).decision = .answer := by
  have hquery : parseQuery defaultConfig.order (zeroedEnv 1000 2000 0 []).masterStack
      ((nameRequest [1, 97, 3, 108, 97, 110]).take 23) =
        some ⟨0x0100, [97, 46, 108, 97, 110], 1, 1⟩ := by decide
  have hauthority : (authorityLookup blacklistRelay.db [108, 97, 110]).isSome = true := by decide
  refine (denied_iff rfl hquery rfl rfl hauthority (by decide) ?_).mpr
    ⟨.inl rfl, by decide, .inl (by decide)⟩
  exact ⟨fun _ ↦ by decide, fun h ↦ absurd h (by decide), fun h ↦ absurd h (by decide)⟩

/-- The query for `b.a.lan` is not denied. -/
theorem deepName_not_denied :
    ¬∀ (cfg : Config) (db : List DnsRecord) (stack domain : List UInt8) (msg : Packet) (query : Rr),
      cfg.masterOnoff = true → parseQuery cfg.order stack msg = some query →
      query.cls = dnsClassInet →
      getOpcode query.flags = 0 →
      (authorityLookup db domain).isSome = true → belowObject query.name domain = true →
      NoData db query → ∃ packet, masterLookup cfg db stack msg = some packet ∧ Denial packet := by
  intro hclaim
  have hquery : parseQuery defaultConfig.order [] (nameRequest [1, 98, 1, 97, 3, 108, 97, 110]) =
      some ⟨0x0100, [98, 46, 97, 46, 108, 97, 110], 1, 1⟩ := by decide
  obtain ⟨packet, hpacket, -⟩ :=
    hclaim defaultConfig blacklistDatabase [] [108, 97, 110] _ _ rfl hquery rfl rfl
    (by decide) (by decide)
    ⟨fun _ ↦ by decide, fun h ↦ absurd h (by decide), fun h ↦ absurd h (by decide)⟩
  have hnone : masterLookup defaultConfig blacklistDatabase []
    (nameRequest [1, 98, 1, 97, 3, 108, 97, 110]) = none := by
    decide
  rw [hnone] at hpacket
  exact absurd hpacket (by simp)

end CrossBreeder.Dnrd
