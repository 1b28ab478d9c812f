import CrossBreeder.Dnsmasq.Forwarding
import Mathlib.Data.Nat.Bitwise

/-!
# The servers for a domain

`search_servers` goes over the list of servers once, and the entries for the longest domain of the
configuration that a name ends with are to decide what becomes of a query. That is so in every order
of the list if and only if the entries agree (`longestWins_iff`): an address that was found for a
shorter domain is not given up for an entry with an address of the other family, entries for one
domain may differ, and an entry for names without dots may come behind one for the usual servers.
-/

namespace CrossBreeder.Dnsmasq

open LocalAnswer

/-! ### Flags of a server -/

theorem and_twoPow {x : UInt16} {k : ℕ} (hk : k < 16) (h : x &&& UInt16.ofNat (2 ^ k) ≠ 0) :
    x &&& UInt16.ofNat (2 ^ k) = UInt16.ofNat (2 ^ k) := by
  have hpow : (UInt16.ofNat (2 ^ k)).toNat = 2 ^ k := by
    rw [UInt16.toNat_ofNat', Nat.mod_eq_of_lt]
    exact Nat.pow_lt_pow_right (by omega) hk
  have hne : (x &&& UInt16.ofNat (2 ^ k)).toNat ≠ 0 := fun hzero ↦ h (UInt16.toNat_inj.mp hzero)
  rw [UInt16.toNat_and, hpow, Nat.and_two_pow] at hne
  rw [← UInt16.toNat_inj, UInt16.toNat_and, hpow, Nat.and_two_pow]
  cases hbit : x.toNat.testBit k with
  | false => simp [hbit] at hne
  | true => simp

variable {qdomain : List UInt8}

variable {left right : Server}

namespace Server

/-- The flags of a server that `search_servers` returns. -/
def searchType (server : Server) :
    UInt16 := server.flags &&& (servHasDomain ||| servUseResolv ||| servNoRebind)

/-- The entry is for the end of a name. -/
def applies (qdomain : List UInt8) (server : Server) : Bool :=
  server.has servHasDomain ∧ matchesDomain qdomain server.domain ∧ server.has servNoRebind = false

def appliesNodots (qdomain : List UInt8) (server : Server) : Bool :=
  server.has servForNodots ∧ 46 ∉ qdomain ∧ qdomain ≠ []

def owns (qdomain : List UInt8) (m : ℕ) (server : Server) :
    Bool := server.applies qdomain ∧ server.domain.length = m

def givesAddress (kind : QueryKind) (server : Server) : Bool :=
  server.has servNoAddr = false ∧ server.has servLiteralAddress ∧ server.answers kind

/-- An entry of `--address`. -/
def isAddress (server : Server) : Bool :=
  server.has servLiteralAddress ∧ server.has servNoAddr = false ∧ server.has servUseResolv = false

theorem owns_iff {m : ℕ} {server : Server} :
    server.owns qdomain m = true ↔ server.applies qdomain = true ∧ server.domain.length = m :=
  decide_eq_true_iff

theorem applies_iff {server : Server} :
    server.applies qdomain = true ↔ server.has servHasDomain = true ∧
      matchesDomain qdomain server.domain = true ∧
      server.has servNoRebind = false := decide_eq_true_iff

theorem appliesNodots_iff {server : Server} :
    server.appliesNodots qdomain = true ↔ server.has servForNodots = true ∧ 46 ∉ qdomain ∧
      qdomain ≠ [] :=
  decide_eq_true_iff

theorem givesAddress_iff {kind : QueryKind} {server : Server} :
    server.givesAddress kind = true ↔ server.has servNoAddr = false ∧
      server.has servLiteralAddress = true ∧ server.answers kind = true := decide_eq_true_iff

theorem isAddress_iff {server : Server} :
    server.isAddress = true ↔ server.has servLiteralAddress = true ∧ server.has servNoAddr = false ∧
      server.has servUseResolv = false := decide_eq_true_iff

theorem searchType_of_owns {m : ℕ} {server : Server} (howns : server.owns qdomain m = true) :
    server.searchType = if server.has servUseResolv then servHasDomain ||| servUseResolv
      else servHasDomain := by
  obtain ⟨hdomain, -, hrebind⟩ := applies_iff.mp (owns_iff.mp howns).1
  have hsplit : server.searchType =
    (server.flags &&& servHasDomain) ||| (server.flags &&& servUseResolv) |||
      (server.flags &&& servNoRebind) := by
    unfold searchType
    rw [← UInt16.toBitVec_inj]
    simp only [UInt16.toBitVec_and, UInt16.toBitVec_or, BitVec.and_or_distrib_left]
  have hhas : server.flags &&& servHasDomain = servHasDomain :=
    and_twoPow (k := 3) (by decide) (of_decide_eq_true hdomain)
  have hnone : server.flags &&& servNoRebind = 0 := not_not.mp (of_decide_eq_false hrebind)
  rw [hsplit, hhas, hnone]
  split_ifs with hresolv
  · have huse : server.flags &&& servUseResolv = servUseResolv :=
      and_twoPow (k := 10) (by decide) (of_decide_eq_true hresolv)
    rw [huse]
    rfl
  · have hzero : server.flags &&& servUseResolv = 0 :=
      not_not.mp (of_decide_eq_false (Bool.eq_false_iff.mpr hresolv))
    rw [hzero]
    rfl

theorem isAddr_literal (server : Server) : server.literal.isAddr = true := by
  unfold literal
  cases server.addr.family <;> rfl

theorem family_of_literal (h : left.literal = right.literal) :
    left.addr.family = right.addr.family := by
  unfold literal at h
  cases hleft : left.addr.family <;> cases hright : right.addr.family <;> simp_all

end Server

/-! ### One entry -/

/-- `search_servers` has not come to a domain of some length yet. -/
def BeforeDomain (m : ℕ) (search : ServerSearch) : Prop := search.matchlen < m ∨ search.matchlen = 0

section Steps

variable {kind : QueryKind} {qdomain : List UInt8} {m : ℕ} {search : ServerSearch} {server : Server}

theorem searchServer_other
    (hlength : server.applies qdomain = true → server.domain.length < search.matchlen)
    (hnodots : server.appliesNodots qdomain = true → search.type = servHasDomain) :
    ∃ norebind, searchServer kind qdomain search server = { search with norebind := norebind } := by
  unfold searchServer
  split_ifs with hfirst hsecond hrebind hskip
  · exact absurd (hnodots (Server.appliesNodots_iff.mpr ⟨hfirst.1, hfirst.2.2⟩)) hfirst.2.1
  · exact ⟨true, rfl⟩
  · exact ⟨search.norebind, rfl⟩
  · have happlies := Server.applies_iff.mpr ⟨hsecond.1, hsecond.2, Bool.eq_false_iff.mpr hrebind⟩
    exact absurd (.inr (hlength happlies)) hskip
  · exact ⟨search.norebind, rfl⟩

theorem searchServer_applies (happlies : server.applies qdomain = true)
    (hnodots : server.has servForNodots = true → server.has servHasDomain = false)
    (hrank : server.outranked kind search = false)
    (hlength : search.matchlen ≤ server.domain.length) : searchServer kind qdomain search server =
      { search with
        type := server.searchType
        domain := server.domain
        matchlen := server.domain.length
        flags := server.verdict kind search.flags .none } := by
  obtain ⟨hdomain, hmatches, hrebind⟩ := Server.applies_iff.mp happlies
  unfold searchServer
  rw [if_neg, if_pos ⟨hdomain, hmatches⟩, if_neg (Bool.eq_false_iff.mp hrebind), if_neg]
  · rfl
  · rintro (houtranked | hshort)
    · exact Bool.eq_false_iff.mp hrank houtranked
    · omega
  · rintro ⟨hfor, -⟩
    exact absurd (hnodots hfor) (by simp [hdomain])

theorem matchlen_searchServer (hlength : server.applies qdomain = true → server.domain.length ≤ m)
    (h : search.matchlen ≤ m) : (searchServer kind qdomain search server).matchlen ≤ m := by
  unfold searchServer
  split_ifs with hfirst hsecond hrebind hskip
  · exact h
  · exact h
  · exact h
  · exact hlength (Server.applies_iff.mpr ⟨hsecond.1, hsecond.2, Bool.eq_false_iff.mpr hrebind⟩)
  · exact h

theorem before_searchServer (hlength : server.applies qdomain = true → server.domain.length < m)
    (h : BeforeDomain m search) : BeforeDomain m (searchServer kind qdomain search server) := by
  unfold searchServer
  split_ifs with hfirst hsecond hrebind hskip
  · exact h
  · exact h
  · exact h
  · exact .inl
      (hlength (Server.applies_iff.mpr ⟨hsecond.1, hsecond.2, Bool.eq_false_iff.mpr hrebind⟩))
  · exact h

def NoAddress (flags : LocalAnswer) : Prop := flags = .none ∨ flags = .noerr ∨ flags = .nxdomain

theorem noAddress_verdict {flags asked : LocalAnswer} (hflags : NoAddress flags)
    (hasked : NoAddress asked) (hgives : server.givesAddress kind = false) :
    NoAddress (server.verdict kind flags asked) := by
  unfold Server.verdict
  split_ifs with hnone hliteral hanswers
  · exact .inr (.inr rfl)
  · exact absurd (Server.givesAddress_iff.mpr ⟨Bool.eq_false_iff.mpr hnone, hliteral, hanswers⟩)
      (Bool.eq_false_iff.mp hgives)
  · exact .inr (.inl rfl)
  · exact hflags
  · exact hasked

theorem not_noAddress_literal (server : Server) : ¬NoAddress server.literal := by
  have haddr := server.isAddr_literal
  rintro (heq | heq | heq) <;> rw [heq] at haddr <;> cases haddr

theorem verdict_of_gives (hgives : server.givesAddress kind = true) (flags asked : LocalAnswer) :
    server.verdict kind flags asked = server.literal := by
  obtain ⟨hnoaddr, hliteral, hanswers⟩ := Server.givesAddress_iff.mp hgives
  unfold Server.verdict
  rw [hnoaddr, if_neg (by simp), if_pos hliteral, if_pos hanswers]

theorem verdict_of_not_gives (haddress : server.isAddress = true)
    (hgives : server.givesAddress kind = false) (flags asked : LocalAnswer) :
    server.verdict kind flags asked = if flags = .none ∨ flags = .nxdomain then .noerr
      else flags := by
  obtain ⟨hliteral, hnoaddr, -⟩ := Server.isAddress_iff.mp haddress
  have hanswers : ¬server.answers kind = true := fun hanswers ↦
    Bool.eq_false_iff.mp hgives (Server.givesAddress_iff.mpr ⟨hnoaddr, hliteral, hanswers⟩)
  unfold Server.verdict
  rw [hnoaddr, if_neg (by simp), if_pos hliteral, if_neg hanswers]

theorem noAddress_searchServer (hnoaddr : NoAddress search.flags)
    (hgives : server.applies qdomain = true ∨ server.appliesNodots qdomain = true →
      server.givesAddress kind = false) :
    NoAddress (searchServer kind qdomain search server).flags := by
  unfold searchServer
  split_ifs with hfirst hsecond hrebind hskip
  · exact noAddress_verdict hnoaddr hnoaddr
      (hgives (.inr (Server.appliesNodots_iff.mpr ⟨hfirst.1, hfirst.2.2⟩)))
  · exact hnoaddr
  · exact hnoaddr
  · exact noAddress_verdict hnoaddr (.inl rfl)
      (hgives (.inl (Server.applies_iff.mpr ⟨hsecond.1, hsecond.2, Bool.eq_false_iff.mpr hrebind⟩)))
  · exact hnoaddr

theorem outranked_address (hliteral : server.has servLiteralAddress = true)
    (hfound : server.answers kind = true ∨ search.flags ≠ .none) :
    server.outranked kind search = false := by
  unfold Server.outranked
  rw [if_pos hliteral]
  rcases hfound with hanswers | hne
  · simp [hanswers]
  · simp [hne]

theorem outranked_before (hlength : server.domain.length = m) (h : BeforeDomain m search) :
    server.outranked kind search = false := by
  refine Bool.eq_false_iff.mpr fun houtranked ↦ ?_
  obtain ⟨hlengths, -⟩ := (Bool.and_eq_true _ _).mp houtranked
  obtain ⟨hpositive, hequal⟩ := (Bool.and_eq_true _ _).mp hlengths
  have hne := of_decide_eq_true hpositive
  have heq := of_decide_eq_true hequal
  rcases h with hless | hzero <;> omega

end Steps

/-! ### The whole list -/

/-- The loop of `search_servers`. -/
def searchList (kind : QueryKind) (qdomain : List UInt8) (servers : List Server) : ServerSearch :=
  servers.foldl (searchServer kind qdomain) ⟨0, [], false, 0, .none⟩

theorem searchList_concat (kind : QueryKind) (qdomain : List UInt8) (list : List Server)
    (server : Server) :
    searchList kind qdomain (list ++ [server]) = searchServer kind qdomain
      (searchList kind qdomain list) server :=
  List.foldl_concat ..

/-- What `search_servers` makes of it, with `OPT_NODOTS_LOCAL`, and whether the name is known here.
-/
def finishSearch (nodotsLocal known : Bool) (kind : QueryKind) (qdomain : List UInt8)
    (search : ServerSearch) :
    ServerSearch :=
  let flags :=
    if search.flags = .none ∧ kind.query = false ∧ nodotsLocal ∧ 46 ∉ qdomain ∧ qdomain ≠ [] then
      .noerr
    else search.flags
  let flags := if flags = .nxdomain ∧ known then .noerr else flags
  if flags = .none ∧ search.type &&& servUseResolv ≠ 0 then
    { search with flags := flags, type := 0, domain := [] }
  else { search with flags := flags }

theorem searchServers_eq (env : ForwardEnv) (s : ForwardState) (now : ℤ) (kind : QueryKind)
    (qdomain : List UInt8) : ∃ known, (searchServers env s now kind qdomain).2 =
      finishSearch env.optNodotsLocal known kind qdomain (searchList kind qdomain s.servers) := by
  unfold searchServers finishSearch searchList
  dsimp only
  generalize s.servers.foldl (searchServer kind qdomain) ⟨0, [], false, 0, .none⟩ = search
  generalize (if search.flags = .none ∧ kind.query = false ∧ env.optNodotsLocal = true ∧
    46 ∉ qdomain ∧ qdomain ≠ []
    then LocalAnswer.noerr else search.flags) = flags
  by_cases hnx : flags = .nxdomain
  · rw [if_pos hnx]
    refine ⟨(checkForLocalDomain env.cache env.process.localNames s.session qdomain now).2, ?_⟩
    simp only [hnx, true_and]
  · rw [if_neg hnx]
    refine ⟨false, ?_⟩
    simp only [hnx, false_and, if_false, Bool.false_eq_true]

structure SameAnswer (left right : ServerSearch) : Prop where
  flags : left.flags = right.flags
  type : left.type = right.type
  domain : hostnameIsequal left.domain right.domain = true

theorem SameAnswer.finish {left right : ServerSearch} (h : SameAnswer left right)
    (nodotsLocal known : Bool) (kind : QueryKind) (qdomain : List UInt8) :
    SameAnswer (finishSearch nodotsLocal known kind qdomain left)
      (finishSearch nodotsLocal known kind qdomain right) := by
  unfold finishSearch
  dsimp only
  rw [h.flags, h.type]
  split_ifs
  all_goals first
    | exact ⟨rfl, rfl, rfl⟩
    | exact ⟨rfl, rfl, h.domain⟩

theorem hostnameIsequal_of_owns {m : ℕ} (hleft : left.owns qdomain m = true)
    (hright : right.owns qdomain m = true) : hostnameIsequal left.domain right.domain = true := by
  obtain ⟨hleftApplies, hleftLength⟩ := Server.owns_iff.mp hleft
  obtain ⟨hrightApplies, hrightLength⟩ := Server.owns_iff.mp hright
  have hleftMatch := (of_decide_eq_true (Server.applies_iff.mp hleftApplies).2.1).2.1
  have hrightMatch := (of_decide_eq_true (Server.applies_iff.mp hrightApplies).2.1).2.1
  rw [hleftLength] at hleftMatch
  rw [hrightLength] at hrightMatch
  have hleftEq := of_decide_eq_true hleftMatch
  have hrightEq := of_decide_eq_true hrightMatch
  exact decide_eq_true (hleftEq.symm.trans hrightEq)

/-- A configuration: an entry is for a domain or for names without dots, and `m` is the length of
the longest domain that the name ends with. -/
structure LongestDomain (qdomain : List UInt8) (m : ℕ) (servers : List Server) : Prop where
  exclusive : ∀ server ∈ servers, server.has servForNodots = true → server.has servHasDomain = false
  longest : ∀ server ∈ servers, server.applies qdomain = true → server.domain.length ≤ m
  present : ∃ server ∈ servers, server.owns qdomain m = true

def ownServers (qdomain : List UInt8) (m : ℕ) (servers : List Server) : List Server :=
  servers.filter (Server.owns qdomain m)

/-- All entries for the longest domain are of `--address`, with different families, or all are of
`--server`. -/
def OneKind (own : List Server) : Prop :=
  ((∀ server ∈ own, server.isAddress = true) ∧ (own.map fun server ↦ server.addr.family).Nodup) ∨
    ∀ server ∈ own, server.has servLiteralAddress = false

/-- The entries that can decide a query agree. There are not addresses of both families for it. If
the domain has addresses, and none for it, then there are none for shorter domains and for names
without dots. Entries for servers are alike, and if they are for the usual ones, no entry is for
names without dots. -/
structure AnswersAgree (kind : QueryKind) (qdomain : List UInt8) (m : ℕ) (servers : List Server) :
    Prop where
  families : ∀ left ∈ servers, ∀ right ∈ servers, left.owns qdomain m = true →
    right.owns qdomain m = true →
    left.givesAddress kind = true → right.givesAddress kind = true →
      left.addr.family = right.addr.family
  leftover : (∃ server ∈ servers, server.owns qdomain m = true ∧
    server.has servLiteralAddress = true) →
    (∀ server ∈ servers, server.owns qdomain m = true → server.givesAddress kind = false) →
      ∀ server ∈ servers, server.applies qdomain = true ∨ server.appliesNodots qdomain = true →
        server.givesAddress kind = false
  alike : ∀ left ∈ servers, ∀ right ∈ servers, left.owns qdomain m = true →
    right.owns qdomain m = true →
    left.has servNoAddr = right.has servNoAddr ∧ left.has servUseResolv = right.has servUseResolv
  nodots : (∃ server ∈ servers, server.owns qdomain m = true ∧ server.has servUseResolv = true) →
    ∀ server ∈ servers, server.appliesNodots qdomain = false

/-- In every order of the list, with every setting, the answer is that of the entries for the
longest domain alone, in any order, and it is for this domain. An address is one of theirs. -/
structure LongestWins (kind : QueryKind) (qdomain : List UInt8) (m : ℕ) (servers : List Server) :
    Prop where
  own : ∀ order alone : List Server, order.Perm servers →
    alone.Perm (ownServers qdomain m servers) →
    ∀ nodotsLocal known,
      SameAnswer (finishSearch nodotsLocal known kind qdomain (searchList kind qdomain order))
      (finishSearch nodotsLocal known kind qdomain (searchList kind qdomain alone))
  selects : ∀ order : List Server, order.Perm servers →
    ∃ server ∈ servers, server.owns qdomain m = true ∧
    (searchList kind qdomain order).domain = server.domain ∧
      (searchList kind qdomain order).type = server.searchType
  address : ∀ order : List Server, order.Perm servers → ∀ nodotsLocal known,
    (finishSearch nodotsLocal known kind qdomain (searchList kind qdomain order)).flags.isAddr =
      true →
      ∃ server ∈ servers, server.owns qdomain m = true ∧ server.has servLiteralAddress = true ∧
        (finishSearch nodotsLocal known kind qdomain (searchList kind qdomain order)).flags =
          server.literal

section Agreement

variable {kind : QueryKind} {qdomain : List UInt8} {m : ℕ} {servers : List Server}

theorem searchList_before (h : LongestDomain qdomain m servers) (list : List Server)
    (hlist : ∀ server ∈ list, server ∈ servers)
    (hown : ∀ server ∈ list, server.owns qdomain m = false) :
    BeforeDomain m (searchList kind qdomain list) := by
  induction list using List.reverseRecOn with
  | nil => exact .inr rfl
  | append_singleton list server ih =>
    have hmem : server ∈ servers := hlist server (by simp)
    have hnot := hown server (by simp)
    have hbefore := ih (fun other hother ↦ hlist other (List.mem_append_left _ hother))
      (fun other hother ↦ hown other (List.mem_append_left _ hother))
    unfold searchList at hbefore ⊢
    rw [List.foldl_concat]
    refine before_searchServer (fun happlies ↦ ?_) hbefore
    refine lt_of_le_of_ne (h.longest server hmem happlies) fun heq ↦ ?_
    exact Bool.eq_false_iff.mp hnot (Server.owns_iff.mpr ⟨happlies, heq⟩)

theorem noAddress_searchList (hgives : ∀ server ∈ servers,
      server.applies qdomain = true ∨ server.appliesNodots qdomain = true →
      server.givesAddress kind = false)
    (list : List Server) (hlist : ∀ server ∈ list, server ∈ servers) :
    NoAddress (searchList kind qdomain list).flags := by
  induction list using List.reverseRecOn with
  | nil => exact .inl rfl
  | append_singleton list server ih =>
    unfold searchList at ih ⊢
    rw [List.foldl_concat]
    exact noAddress_searchServer (ih fun other hother ↦ hlist other (List.mem_append_left _ hother))
      (hgives server (hlist server (by simp)))

structure AddressAnswer (kind : QueryKind) (qdomain : List UInt8) (m : ℕ)
    (servers list : List Server) (search : ServerSearch) : Prop where
  matchlen : search.matchlen = m
  type : search.type = servHasDomain
  domain : ∃ server ∈ list, server.owns qdomain m = true ∧ search.domain = server.domain
  flags_ne : search.flags ≠ .none ∧ search.flags ≠ .nxdomain
  literal : ∀ server ∈ list, server.owns qdomain m = true → server.givesAddress kind = true →
    search.flags = server.literal
  noerr : (∀ server ∈ servers, server.owns qdomain m = true → server.givesAddress kind = false) →
    search.flags = .noerr

theorem searchServer_behind (h : LongestDomain qdomain m servers) {server : Server}
    {search : ServerSearch} (hmem : server ∈ servers) (hnot : server.owns qdomain m = false)
    (hmatchlen : search.matchlen = m) (hnodots : server.appliesNodots qdomain = true →
      search.type = servHasDomain) :
    ∃ norebind, searchServer kind qdomain search server = { search with norebind := norebind } := by
  refine searchServer_other (fun happlies ↦ ?_) hnodots
  rw [hmatchlen]
  refine lt_of_le_of_ne (h.longest server hmem happlies) fun heq ↦ ?_
  exact Bool.eq_false_iff.mp hnot (Server.owns_iff.mpr ⟨happlies, heq⟩)

/-- What holds of the answer for the longest domain: it begins with an entry for it, and entries for
others change nothing. -/
theorem searchList_answer (h : LongestDomain qdomain m servers)
    {Answer : List Server → ServerSearch → Prop} (hbehind : ∀ list search norebind,
      ∀ server ∈ servers, server.owns qdomain m = false → Answer list search →
      Answer (list ++ [server]) { search with norebind := norebind })
    (hmatchlen : ∀ list search, Answer list search → search.matchlen = m)
    (hnodots : ∀ list search, Answer list search →
      ∀ server ∈ servers, server.appliesNodots qdomain = true → search.type = servHasDomain)
    (hown : ∀ list search, searchList kind qdomain list = search →
      (∀ server ∈ list, server ∈ servers) → search.matchlen ≤ m →
      ((∀ other ∈ list, other.owns qdomain m = false) ∧ BeforeDomain m search ∨
        Answer list search) →
      ∀ server ∈ servers, server.owns qdomain m = true →
        Answer (list ++ [server]) (searchServer kind qdomain search server))
    (list : List Server) (hlist : ∀ server ∈ list, server ∈ servers) (hfound : ∃ server ∈ list,
      server.owns qdomain m = true) :
    Answer list (searchList kind qdomain list) := by
  induction list using List.reverseRecOn with
  | nil => exact absurd hfound (by simp)
  | append_singleton list server ih =>
    have hmem : server ∈ servers := hlist server (by simp)
    have hlist' : ∀ other ∈ list, other ∈ servers :=
      fun other hother ↦ hlist other (List.mem_append_left _ hother)
    rw [searchList_concat]
    generalize hsearch : searchList kind qdomain list = search at ih
    cases howns : server.owns qdomain m with
    | false =>
      -- an entry of another domain behind those of the longest one
      obtain ⟨own, hownMem, hownOwns⟩ := hfound
      have hother : own ∈ list := (List.mem_append.mp hownMem).resolve_right fun hlast ↦ by
        rw [List.mem_singleton.mp hlast, howns] at hownOwns
        exact absurd hownOwns (by simp)
      have hanswer := ih hlist' ⟨own, hother, hownOwns⟩
      obtain ⟨norebind, hstep⟩ :=
        @searchServer_behind kind _ _ _ h _ _ hmem howns (hmatchlen _ _ hanswer)
        (hnodots _ _ hanswer server hmem)
      rw [hstep]
      exact hbehind _ _ _ _ hmem howns hanswer
    | true =>
      by_cases hfirst : ∃ own ∈ list, own.owns qdomain m = true
      · have hanswer := ih hlist' hfirst
        exact hown _ _ hsearch hlist' (hmatchlen _ _ hanswer).le (.inr hanswer) server hmem howns
      · have hnone : ∀ other ∈ list, other.owns qdomain m = false := fun other hother ↦
          Bool.eq_false_iff.mpr fun howns ↦ hfirst ⟨other, hother, howns⟩
        have hbefore := @searchList_before kind _ _ _ h list hlist' hnone
        rw [hsearch] at hbefore
        exact hown _ _ hsearch hlist' (hbefore.elim le_of_lt fun hzero ↦
          hzero.trans_le (Nat.zero_le m)) (.inl ⟨hnone, hbefore⟩) server hmem howns

theorem exists_mem_concat {list : List Server} {server : Server} {P : Server → Prop} :
    (∃ other ∈ list, P other) → ∃ other ∈ list ++ [server], P other :=
  fun ⟨other, hother, hP⟩ ↦ ⟨other, List.mem_append_left _ hother, hP⟩

theorem searchList_address (h : LongestDomain qdomain m servers)
    (hagree : AnswersAgree kind qdomain m servers)
    (haddress : ∀ server ∈ ownServers qdomain m servers, server.isAddress = true)
    (hfamilies : ((ownServers qdomain m servers).map fun server ↦ server.addr.family).Nodup) :
    ∀ list : List Server, (∀ server ∈ list, server ∈ servers) →
      (∃ server ∈ list, server.owns qdomain m = true) →
      AddressAnswer kind qdomain m servers list (searchList kind qdomain list) := by
  refine searchList_answer h ?_ (fun _ _ hanswer ↦ hanswer.matchlen)
    (fun _ _ hanswer _ _ _ ↦ hanswer.type) ?_
  · intro list search norebind server _ hnot hanswer
    refine ⟨hanswer.matchlen, hanswer.type, exists_mem_concat hanswer.domain, hanswer.flags_ne, ?_,
      hanswer.noerr⟩
    intro other hother howns
    refine hanswer.literal other ((List.mem_append.mp hother).resolve_right fun hlast ↦ ?_) howns
    rw [List.mem_singleton.mp hlast, hnot] at howns
    exact absurd howns (by simp)
  · intro list search hsearch hlist hmatchlen hbefore server hmem howns
    obtain ⟨happlies, hlength⟩ := Server.owns_iff.mp howns
    have hisAddress := haddress server (List.mem_filter.mpr ⟨hmem, howns⟩)
    obtain ⟨hliteral, hnoaddr, hresolv⟩ := Server.isAddress_iff.mp hisAddress
    have htype : server.searchType = servHasDomain := by
      rw [Server.searchType_of_owns howns, hresolv]
      rfl
    -- the state in front of the entry: the first one of its domain, or not
    have hstate : server.outranked kind search = false ∧
        (∀ other ∈ list, other.owns qdomain m = true → other.givesAddress kind = true →
          search.flags = other.literal) ∧
        ((∀ other ∈ servers, other.owns qdomain m = true → other.givesAddress kind = false) →
          NoAddress search.flags) := by
      rcases hbefore with ⟨hnone, hbefore⟩ | hanswer
      · refine ⟨outranked_before hlength hbefore, fun other hother howns ↦
          absurd howns (by simp [hnone other hother]), ?_⟩
        intro hgivesNone
        rw [← hsearch]
        exact noAddress_searchList (hagree.leftover ⟨server, hmem, howns, hliteral⟩ hgivesNone) list
          hlist
      · exact ⟨outranked_address hliteral (.inr hanswer.flags_ne.1), hanswer.literal,
          fun hnone ↦ .inr (.inl (hanswer.noerr hnone))⟩
    obtain ⟨hrank, hbeforeLiteral, hbeforeNone⟩ := hstate
    rw [searchServer_applies happlies (h.exclusive server hmem) hrank (hlength ▸ hmatchlen)]
    cases hgives : server.givesAddress kind with
    | true =>
      rw [verdict_of_gives hgives]
      refine ⟨hlength, htype, ⟨server, by simp, howns, rfl⟩, ?_, ?_, ?_⟩
      · exact ⟨fun heq ↦ not_noAddress_literal server (.inl heq), fun heq ↦
          not_noAddress_literal server (.inr (.inr heq))⟩
      · intro other hother hownsOther hgivesOther
        have hotherMem : other ∈ servers :=
          (List.mem_append.mp hother).elim (hlist other) fun hlast ↦
            List.mem_singleton.mp hlast ▸ hmem
        -- two entries that give an address are one
        have hfamily :=
          hagree.families other hotherMem server hmem hownsOther howns hgivesOther hgives
        have hsame : other = server := List.inj_on_of_nodup_map hfamilies
          (List.mem_filter.mpr ⟨hotherMem, hownsOther⟩) (List.mem_filter.mpr ⟨hmem, howns⟩) hfamily
        rw [hsame]
      · exact fun hnone ↦ absurd hgives (by simp [hnone server hmem howns])
    | false =>
      rw [verdict_of_not_gives hisAddress hgives]
      refine ⟨hlength, htype, ⟨server, by simp, howns, rfl⟩, ?_, ?_, ?_⟩
      · dsimp only
        split_ifs with hflags
        · exact ⟨by simp, by simp⟩
        · exact not_or.mp hflags
      · intro other hother hownsOther hgivesOther
        have holder : other ∈ list := (List.mem_append.mp hother).resolve_right fun hlast ↦ by
          rw [List.mem_singleton.mp hlast, hgives] at hgivesOther
          exact absurd hgivesOther (by simp)
        rw [hbeforeLiteral other holder hownsOther hgivesOther, if_neg]
        exact fun heq ↦ not_noAddress_literal other (heq.imp id .inr)
      · intro hnone
        rcases hbeforeNone hnone with heq | heq | heq <;> simp [heq]

structure ServerAnswer (qdomain : List UInt8) (m : ℕ) (list : List Server) (last : Server)
    (search : ServerSearch) : Prop where
  matchlen : search.matchlen = m
  type : search.type = last.searchType
  domain : ∃ server ∈ list, server.owns qdomain m = true ∧ search.domain = server.domain
  flags : search.flags = if last.has servNoAddr then .nxdomain else .none

/-- An entry for a server of the longest domain decides, unless an address was found for this
domain. -/
theorem searchServer_server {server : Server} {search : ServerSearch}
    (howns : server.owns qdomain m = true) (hexclusive : server.has servForNodots = true →
      server.has servHasDomain = false)
    (hliteral : server.has servLiteralAddress = false)
    (hrank : server.outranked kind search = false) (hmatchlen : search.matchlen ≤ m)
    {list : List Server} (hlist : server ∈ list) :
    ServerAnswer qdomain m list server (searchServer kind qdomain search server) := by
  obtain ⟨happlies, hlength⟩ := Server.owns_iff.mp howns
  rw [searchServer_applies happlies hexclusive hrank (hlength ▸ hmatchlen)]
  refine ⟨hlength, rfl, ⟨server, hlist, howns, rfl⟩, ?_⟩
  unfold Server.verdict
  rw [hliteral]
  rfl

theorem outranked_server {server last : Server} {search : ServerSearch} {list : List Server}
    (hliteral : server.has servLiteralAddress = false)
    (h : ServerAnswer qdomain m list last search) : server.outranked kind search = false := by
  have hflags : search.flags.isAddr = false := by
    rw [h.flags]
    split_ifs <;> rfl
  unfold Server.outranked
  rw [hliteral, if_neg (by simp), hflags, Bool.and_false]

theorem searchList_server (h : LongestDomain qdomain m servers)
    (hagree : AnswersAgree kind qdomain m servers) (hservers :
    ∀ server ∈ ownServers qdomain m servers, server.has servLiteralAddress = false) (last : Server)
    (hlast : last ∈ servers) (hlastOwns : last.owns qdomain m = true) :
    ∀ list : List Server, (∀ server ∈ list, server ∈ servers) →
      (∃ server ∈ list, server.owns qdomain m = true) →
      ServerAnswer qdomain m list last (searchList kind qdomain list) := by
  refine searchList_answer h ?_ (fun _ _ hanswer ↦ hanswer.matchlen) ?_ ?_
  · exact fun _ _ _ _ _ _ hanswer ↦
      ⟨hanswer.matchlen, hanswer.type, exists_mem_concat hanswer.domain, hanswer.flags⟩
  · intro list search hanswer server hmem hnodots
    rw [hanswer.type, Server.searchType_of_owns hlastOwns, if_neg]
    intro hresolv
    exact absurd (hagree.nodots ⟨last, hlast, hlastOwns, hresolv⟩ server hmem) (by simp [hnodots])
  · intro list search _ _ hmatchlen hbefore server hmem howns
    have hliteral := hservers server (List.mem_filter.mpr ⟨hmem, howns⟩)
    have hrank : server.outranked kind search = false := hbefore.elim
      (fun hbefore ↦ outranked_before (Server.owns_iff.mp howns).2 hbefore.2)
        (outranked_server hliteral)
    have hanswer :=
      @searchServer_server kind _ _ _ _ howns (h.exclusive server hmem) hliteral hrank hmatchlen _
      (List.mem_append_right list (List.mem_singleton_self server))
    -- all entries for the domain are alike
    have halike := hagree.alike server hmem last hlast howns hlastOwns
    refine ⟨hanswer.matchlen, ?_, hanswer.domain, ?_⟩
    · rw [hanswer.type, Server.searchType_of_owns howns, Server.searchType_of_owns hlastOwns,
        halike.2]
    · rw [hanswer.flags, halike.1]

theorem flags_of_isAddr_finishSearch {nodotsLocal known : Bool} {search : ServerSearch}
    (h : (finishSearch nodotsLocal known kind qdomain search).flags.isAddr = true) :
    (finishSearch nodotsLocal known kind qdomain search).flags = search.flags := by
  unfold finishSearch at h ⊢
  dsimp only at h ⊢
  split_ifs at h ⊢
  all_goals first
    | rfl
    | exact absurd h (by simp [LocalAnswer.isAddr])

/-- The same answer for every list with all entries for the longest domain. -/
theorem longestWins_of_answer (type : UInt16) (flags : LocalAnswer)
    (hanswer : ∀ list : List Server, (∀ server ∈ list, server ∈ servers) →
      (∀ server ∈ servers, server.owns qdomain m = true → server ∈ list) →
      (searchList kind qdomain list).type = type ∧ (searchList kind qdomain list).flags = flags ∧
        ∃ server ∈ list, server.owns qdomain m = true ∧
        (searchList kind qdomain list).domain = server.domain)
    (htype : ∀ server ∈ servers, server.owns qdomain m = true → server.searchType = type)
    (haddress : flags.isAddr = true → ∃ server ∈ servers, server.owns qdomain m = true ∧
      server.has servLiteralAddress = true ∧ flags = server.literal) :
      LongestWins kind qdomain m servers := by
  have horder := fun (order : List Server) (hperm : order.Perm servers) ↦
    hanswer order (fun server ↦ hperm.mem_iff.mp) fun server hmem _ ↦ hperm.mem_iff.mpr hmem
  refine ⟨?_, ?_, ?_⟩
  · intro order alone hperm hown nodotsLocal known
    obtain ⟨horderType, horderFlags, left, -, hleft, hleftDomain⟩ := horder order hperm
    obtain ⟨haloneType, haloneFlags, right, -, hright, hrightDomain⟩ := hanswer alone
      (fun server hmem ↦ (List.mem_filter.mp (hown.mem_iff.mp hmem)).1)
      fun server hmem howns ↦ hown.mem_iff.mpr (List.mem_filter.mpr ⟨hmem, howns⟩)
    refine SameAnswer.finish ⟨horderFlags.trans haloneFlags.symm, horderType.trans haloneType.symm,
      ?_⟩ nodotsLocal known kind qdomain
    rw [hleftDomain, hrightDomain]
    exact hostnameIsequal_of_owns hleft hright
  · intro order hperm
    obtain ⟨horderType, -, server, hmem, howns, hdomain⟩ := horder order hperm
    have hserver := hperm.mem_iff.mp hmem
    exact ⟨server, hserver, howns, hdomain, horderType.trans (htype server hserver howns).symm⟩
  · intro order hperm nodotsLocal known haddr
    have hflags := (flags_of_isAddr_finishSearch haddr).trans (horder order hperm).2.1
    rw [hflags] at haddr ⊢
    exact haddress haddr

theorem longestWins (h : LongestDomain qdomain m servers)
    (hkind : OneKind (ownServers qdomain m servers))
    (hagree : AnswersAgree kind qdomain m servers) : LongestWins kind qdomain m servers := by
  obtain ⟨last, hlast, hlastOwns⟩ := h.present
  rcases hkind with ⟨haddress, hfamilies⟩ | hservers
  · -- addresses
    have hanswer := searchList_address h hagree haddress hfamilies
    have htype : ∀ server ∈ servers, server.owns qdomain m = true →
      server.searchType = servHasDomain := by
      intro server hmem howns
      rw [Server.searchType_of_owns howns,
        (Server.isAddress_iff.mp (haddress server (List.mem_filter.mpr ⟨hmem, howns⟩))).2.2]
      rfl
    by_cases hgives : ∃ server ∈ servers, server.owns qdomain m = true ∧
      server.givesAddress kind = true
    · obtain ⟨server, hmem, howns, hgives⟩ := hgives
      refine longestWins_of_answer _ server.literal (fun list hlist hall ↦ ?_) htype fun _ ↦
        ⟨server, hmem, howns, (Server.givesAddress_iff.mp hgives).2.1, rfl⟩
      have hlistAnswer := hanswer list hlist ⟨last, hall last hlast hlastOwns, hlastOwns⟩
      exact ⟨hlistAnswer.type, hlistAnswer.literal server (hall server hmem howns) howns hgives,
        hlistAnswer.domain⟩
    · have hnone : ∀ server ∈ servers, server.owns qdomain m = true →
        server.givesAddress kind = false :=
        fun server hmem howns ↦ Bool.eq_false_iff.mpr fun hgive ↦
          hgives ⟨server, hmem, howns, hgive⟩
      refine longestWins_of_answer _ .noerr (fun list hlist hall ↦ ?_) htype fun haddr ↦ by
        cases haddr
      have hlistAnswer := hanswer list hlist ⟨last, hall last hlast hlastOwns, hlastOwns⟩
      exact ⟨hlistAnswer.type, hlistAnswer.noerr hnone, hlistAnswer.domain⟩
  · -- servers
    refine longestWins_of_answer last.searchType (if last.has servNoAddr then .nxdomain else .none)
      (fun list hlist hall ↦ ?_) (fun server hmem howns ↦ ?_) fun haddr ↦ ?_
    · have hanswer := searchList_server h hagree hservers last hlast hlastOwns list hlist
        ⟨last, hall last hlast hlastOwns, hlastOwns⟩
      exact ⟨hanswer.type, hanswer.flags, hanswer.domain⟩
    · rw [Server.searchType_of_owns howns, Server.searchType_of_owns hlastOwns,
        (hagree.alike server hmem last hlast howns hlastOwns).2]
    · split_ifs at haddr <;> cases haddr

/-! ### Entries that do not agree -/

theorem flags_finishSearch (search : ServerSearch) :
    (finishSearch false false kind qdomain search).flags = search.flags := by
  unfold finishSearch
  simp only [Bool.false_eq_true, false_and, and_false, if_false]
  split_ifs <;> rfl

theorem type_finishSearch (search : ServerSearch) :
    (finishSearch false false kind qdomain search).type =
      if search.flags = .none ∧ search.type &&& servUseResolv ≠ 0 then 0 else search.type := by
  unfold finishSearch
  simp only [Bool.false_eq_true, false_and, and_false, if_false]
  split_ifs <;> rfl

theorem matchlen_searchList (h : LongestDomain qdomain m servers) (list : List Server)
    (hlist : ∀ server ∈ list, server ∈ servers) : (searchList kind qdomain list).matchlen ≤ m := by
  induction list using List.reverseRecOn with
  | nil => exact Nat.zero_le m
  | append_singleton list server ih =>
    unfold searchList at ih ⊢
    rw [List.foldl_concat]
    exact matchlen_searchServer (h.longest server (hlist server (by simp)))
      (ih fun other hother ↦ hlist other (List.mem_append_left _ hother))

theorem searchList_last_address (h : LongestDomain qdomain m servers) {list : List Server}
    {server : Server} (hlist : ∀ other ∈ list, other ∈ servers) (hmem : server ∈ servers)
    (howns : server.owns qdomain m = true) (hgives : server.givesAddress kind = true) :
    (searchList kind qdomain (list ++ [server])).flags = server.literal := by
  obtain ⟨happlies, hlength⟩ := Server.owns_iff.mp howns
  obtain ⟨-, hliteral, hanswers⟩ := Server.givesAddress_iff.mp hgives
  rw [searchList_concat, searchServer_applies happlies (h.exclusive server hmem)
    (outranked_address hliteral (.inl hanswers)) (hlength ▸ matchlen_searchList h list hlist)]
  exact verdict_of_gives hgives _ _

/-- Servers of the longest domain at the end of the list: the last one is the answer. -/
theorem searchList_last_server (h : LongestDomain qdomain m servers) {front : List Server}
    (hfront : ∀ other ∈ front, other ∈ servers ∧ other.owns qdomain m = false)
    (list : List Server) : ∀ {server : Server}, (∀ other ∈ list ++ [server],
      other ∈ servers ∧ other.owns qdomain m = true ∧ other.has servLiteralAddress = false) →
      ServerAnswer qdomain m (front ++ list ++ [server]) server
      (searchList kind qdomain (front ++ list ++ [server])) := by
  induction list using List.reverseRecOn with
  | nil =>
    intro server hown
    obtain ⟨hmem, howns, hliteral⟩ := hown server (by simp)
    have hbefore :=
      @searchList_before kind _ _ _ h front (fun other hother ↦ (hfront other hother).1)
      fun other hother ↦ (hfront other hother).2
    rw [List.append_nil]
    unfold searchList at hbefore ⊢
    rw [List.foldl_concat]
    exact searchServer_server howns (h.exclusive server hmem) hliteral
      (outranked_before (Server.owns_iff.mp howns).2 hbefore)
      (hbefore.elim le_of_lt fun hzero ↦ hzero.trans_le (Nat.zero_le m)) (by simp)
  | append_singleton list previous ih =>
    intro server hown
    obtain ⟨hmem, howns, hliteral⟩ := hown server (by simp)
    have hanswer := @ih previous fun other hother ↦ hown other (List.mem_append_left _ hother)
    rw [List.append_assoc front] at hanswer
    unfold searchList at hanswer ⊢
    rw [List.foldl_concat]
    exact searchServer_server howns (h.exclusive server hmem) hliteral
      (outranked_server hliteral hanswer) hanswer.matchlen.le (by simp)

theorem searchList_stray {server : Server} (hexclusive : server.has servForNodots = true →
    server.has servHasDomain = false)
    (happlies : server.applies qdomain = true ∨ server.appliesNodots qdomain = true)
    (hgives : server.givesAddress kind = true) :
    (searchList kind qdomain [server]).flags = server.literal := by
  change (searchServer kind qdomain ⟨0, [], false, 0, .none⟩ server).flags = server.literal
  rcases happlies with happlies | hnodots
  · rw [searchServer_applies happlies hexclusive (outranked_before rfl (.inr rfl)) (Nat.zero_le _)]
    exact verdict_of_gives hgives _ _
  · obtain ⟨hfor, hdot, hempty⟩ := Server.appliesNodots_iff.mp hnodots
    have hfirst : server.has servForNodots = true ∧ (0 : UInt16) ≠ servHasDomain ∧ 46 ∉ qdomain ∧
      qdomain ≠ [] :=
      ⟨hfor, by decide, hdot, hempty⟩
    unfold searchServer
    rw [if_pos hfirst]
    exact verdict_of_gives hgives _ _

/-- The longest domain has addresses, and none for the query: the one that was found for a shorter
domain stays. -/
theorem searchList_keeps (h : LongestDomain qdomain m servers) {stray : Server}
    (hstray : stray ∈ servers) (hflags : (searchList kind qdomain [stray]).flags = stray.literal)
    (list : List Server) (hlist : ∀ other ∈ list, other ∈ servers ∧ other.owns qdomain m = true ∧
      other.isAddress = true ∧ other.givesAddress kind = false) :
    (searchList kind qdomain (stray :: list)).flags = stray.literal ∧
      (list ≠ [] → (searchList kind qdomain (stray :: list)).matchlen = m ∧
        (searchList kind qdomain (stray :: list)).type = servHasDomain) := by
  induction list using List.reverseRecOn with
  | nil => exact ⟨hflags, fun hne ↦ absurd rfl hne⟩
  | append_singleton list server ih =>
    obtain ⟨hmem, howns, haddress, hgives⟩ := hlist server (by simp)
    obtain ⟨hkept, -⟩ := ih fun other hother ↦ hlist other (List.mem_append_left _ hother)
    obtain ⟨happlies, hlength⟩ := Server.owns_iff.mp howns
    obtain ⟨hliteral, -, hresolv⟩ := Server.isAddress_iff.mp haddress
    have hmatchlen := @matchlen_searchList kind _ _ _ h (stray :: list) (fun other hother ↦
      (List.mem_cons.mp hother).elim (fun heq ↦ heq ▸ hstray) fun hin ↦
        (hlist other (List.mem_append_left _ hin)).1)
    have hne : stray.literal ≠ .none ∧ stray.literal ≠ .nxdomain :=
      ⟨fun heq ↦ not_noAddress_literal stray (.inl heq), fun heq ↦
        not_noAddress_literal stray (.inr (.inr heq))⟩
    rw [← List.cons_append, searchList_concat,
      searchServer_applies happlies (h.exclusive server hmem)
      (outranked_address hliteral (.inr (hkept ▸ hne.1))) (hlength ▸ hmatchlen),
        verdict_of_not_gives haddress hgives, hkept]
    refine ⟨if_neg (not_or.mpr hne), fun _ ↦ ⟨hlength, ?_⟩⟩
    rw [Server.searchType_of_owns howns, hresolv]
    rfl

/-- Other entries behind them change nothing. -/
theorem flags_searchList_behind (h : LongestDomain qdomain m servers) {front : List Server}
    (hmatchlen : (searchList kind qdomain front).matchlen = m)
    (htype : (searchList kind qdomain front).type = servHasDomain) (list : List Server)
    (hlist : ∀ other ∈ list, other ∈ servers ∧ other.owns qdomain m = false) :
    ∃ norebind, searchList kind qdomain (front ++ list) =
      { searchList kind qdomain front with norebind := norebind } := by
  induction list using List.reverseRecOn with
  | nil => exact ⟨_, by rw [List.append_nil]⟩
  | append_singleton list server ih =>
    obtain ⟨hmem, hnot⟩ := hlist server (by simp)
    obtain ⟨norebind, hsearch⟩ := ih fun other hother ↦ hlist other (List.mem_append_left _ hother)
    rw [← List.append_assoc, searchList_concat, hsearch]
    exact @searchServer_behind kind _ _ _ h _
      { searchList kind qdomain front with norebind := norebind } hmem hnot hmatchlen fun _ ↦ htype

theorem perm_erase_concat {list : List Server} {server : Server} (hmem : server ∈ list) :
    (list.erase server ++ [server]).Perm list :=
  (List.perm_append_singleton server _).trans (List.perm_cons_erase hmem).symm

theorem ownServers_append_perm (qdomain : List UInt8) (m : ℕ) (servers : List Server) :
    (ownServers qdomain m servers ++ servers.filter fun server ↦
      !server.owns qdomain m).Perm servers :=
  List.filter_append_perm _ servers

theorem mem_ownServers {server : Server} :
    server ∈ ownServers qdomain m servers ↔ server ∈ servers ∧ server.owns qdomain m = true :=
  List.mem_filter

theorem not_owns_of_mem_erase {server other : Server}
    (hother : other ∈ (servers.filter fun server ↦ !server.owns qdomain m).erase server) :
    other ∈ servers ∧ other.owns qdomain m = false := by
  obtain ⟨hmem, hnot⟩ := List.mem_filter.mp (List.mem_of_mem_erase hother)
  exact ⟨hmem, by simpa using hnot⟩

/-- Two orders of the entries for the longest domain have one answer. -/
theorem LongestWins.same (hwins : LongestWins kind qdomain m servers) {first second : List Server}
    (hfirst : first.Perm (ownServers qdomain m servers))
    (hsecond : second.Perm (ownServers qdomain m servers)) :
    (searchList kind qdomain first).flags = (searchList kind qdomain second).flags ∧
      (finishSearch false false kind qdomain (searchList kind qdomain first)).type =
        (finishSearch false false kind qdomain (searchList kind qdomain second)).type := by
  have hleft := hwins.own servers first (List.Perm.refl _) hfirst false false
  have hright := hwins.own servers second (List.Perm.refl _) hsecond false false
  have hflags := hleft.flags.symm.trans hright.flags
  rw [flags_finishSearch, flags_finishSearch] at hflags
  exact ⟨hflags, hleft.type.symm.trans hright.type⟩

/-- So `search_servers` answers as with the entries for the longest domain alone, and an address
that it gives is one of theirs. -/
theorem LongestWins.searchServers {s : ForwardState} (hwins : LongestWins kind qdomain m s.servers)
    (env : ForwardEnv) (now : ℤ) {alone : List Server}
    (halone : alone.Perm (ownServers qdomain m s.servers)) :
    ∃ known, SameAnswer (Dnsmasq.searchServers env s now kind qdomain).2
        (finishSearch env.optNodotsLocal known kind qdomain (searchList kind qdomain alone)) ∧
      ((Dnsmasq.searchServers env s now kind qdomain).2.flags.isAddr = true →
        ∃ server ∈ s.servers, server.owns qdomain m = true ∧ server.has servLiteralAddress = true ∧
          (Dnsmasq.searchServers env s now kind qdomain).2.flags = server.literal) := by
  obtain ⟨known, hsearch⟩ := searchServers_eq env s now kind qdomain
  rw [hsearch]
  exact ⟨known, hwins.own _ _ (.refl _) halone _ _, hwins.address _ (.refl _) _ _⟩

theorem families_agree (h : LongestDomain qdomain m servers)
    (hwins : LongestWins kind qdomain m servers) (hleft : left ∈ ownServers qdomain m servers)
    (hright : right ∈ ownServers qdomain m servers) (hleftGives : left.givesAddress kind = true)
    (hrightGives : right.givesAddress kind = true) :
    left.addr.family = right.addr.family := by
  have hlast : ∀ server ∈ ownServers qdomain m servers, server.givesAddress kind = true →
      (searchList kind qdomain ((ownServers qdomain m servers).erase server ++ [server])).flags =
        server.literal :=
    fun server hmem hgives ↦ searchList_last_address h
      (fun other hother ↦ (mem_ownServers.mp (List.mem_of_mem_erase hother)).1)
        (mem_ownServers.mp hmem).1
      (mem_ownServers.mp hmem).2 hgives
  have hflags := (hwins.same (perm_erase_concat hleft) (perm_erase_concat hright)).1
  rw [hlast left hleft hleftGives, hlast right hright hrightGives] at hflags
  exact Server.family_of_literal hflags

/-- An address for a shorter domain that comes first stays, where the longest one has only others.
-/
theorem stray_gives_not (h : LongestDomain qdomain m servers)
    (hwins : LongestWins kind qdomain m servers)
    (haddress : ∀ server ∈ ownServers qdomain m servers, server.isAddress = true)
    (hnone : ∀ server ∈ servers, server.owns qdomain m = true → server.givesAddress kind = false)
    {stray : Server} (hmem : stray ∈ servers)
    (happlies : stray.applies qdomain = true ∨ stray.appliesNodots qdomain = true) :
    stray.givesAddress kind = false := by
  refine Bool.eq_false_iff.mpr fun hgives ↦ ?_
  have hnot : stray.owns qdomain m = false := Bool.eq_false_iff.mpr fun howns ↦
    absurd hgives (by simp [hnone stray hmem howns])
  -- the entry comes first, and those of the longest domain next
  set others := (servers.filter fun server ↦ !server.owns qdomain m).erase stray with hothers
  have hstrayOther : stray ∈ servers.filter fun server ↦ !server.owns qdomain m :=
    List.mem_filter.mpr ⟨hmem, by simp [hnot]⟩
  have hperm : (stray :: (ownServers qdomain m servers) ++ others).Perm servers := by
    refine List.Perm.trans ?_ (ownServers_append_perm qdomain m servers)
    exact List.perm_middle.symm.trans ((List.perm_cons_erase hstrayOther).symm.append_left _)
  obtain ⟨hkept, hbehind⟩ :=
    searchList_keeps h hmem (searchList_stray (h.exclusive stray hmem) happlies hgives)
    (ownServers qdomain m servers) fun other hother ↦
      ⟨(mem_ownServers.mp hother).1, (mem_ownServers.mp hother).2, haddress other hother,
        hnone other (mem_ownServers.mp hother).1 (mem_ownServers.mp hother).2⟩
  obtain ⟨own, hown, howns⟩ := h.present
  obtain ⟨hmatchlen, htype⟩ := hbehind (List.ne_nil_of_mem (mem_ownServers.mpr ⟨hown, howns⟩))
  obtain ⟨norebind, hall⟩ := flags_searchList_behind h hmatchlen htype others fun other ↦
    not_owns_of_mem_erase
  have hflags := (hwins.own _ _ hperm (List.Perm.refl _) false false).flags
  rw [flags_finishSearch, flags_finishSearch, hall] at hflags
  refine not_noAddress_literal stray ((hkept.symm.trans hflags) ▸ ?_)
  exact noAddress_searchList (fun server hserver _ ↦
    hnone server (mem_ownServers.mp hserver).1 (mem_ownServers.mp hserver).2)
    _ fun _ hother ↦ hother

/-- Each of the entries for servers decides where it comes last. -/
theorem servers_alike (h : LongestDomain qdomain m servers)
    (hwins : LongestWins kind qdomain m servers)
    (hservers : ∀ server ∈ ownServers qdomain m servers, server.has servLiteralAddress = false)
    (hleft : left ∈ ownServers qdomain m servers) (hright : right ∈ ownServers qdomain m servers) :
    left.has servNoAddr = right.has servNoAddr ∧
      left.has servUseResolv = right.has servUseResolv := by
  have hlast : ∀ server ∈ ownServers qdomain m servers,
      ServerAnswer qdomain m ((ownServers qdomain m servers).erase server ++ [server]) server
        (searchList kind qdomain ((ownServers qdomain m servers).erase server ++ [server])) := by
    intro server hserver
    refine @searchList_last_server kind _ _ _ h [] (by simp) _ _ fun other hother ↦ ?_
    have hother : other ∈ ownServers qdomain m servers :=
      (perm_erase_concat hserver).mem_iff.mp hother
    exact ⟨(mem_ownServers.mp hother).1, (mem_ownServers.mp hother).2, hservers other hother⟩
  obtain ⟨hflags, htype⟩ := hwins.same (perm_erase_concat hleft) (perm_erase_concat hright)
  rw [(hlast left hleft).flags, (hlast right hright).flags] at hflags
  rw [type_finishSearch, type_finishSearch, (hlast left hleft).flags, (hlast right hright).flags,
    (hlast left hleft).type,
    (hlast right hright).type, Server.searchType_of_owns (mem_ownServers.mp hleft).2,
    Server.searchType_of_owns (mem_ownServers.mp hright).2] at htype
  generalize left.has servNoAddr = leftNoAddr at hflags htype ⊢
  generalize right.has servNoAddr = rightNoAddr at hflags htype ⊢
  generalize left.has servUseResolv = leftResolv at htype ⊢
  generalize right.has servUseResolv = rightResolv at htype ⊢
  revert hflags htype
  cases leftNoAddr <;> cases rightNoAddr <;> cases leftResolv <;> cases rightResolv <;> decide

theorem nodots_applies_not (h : LongestDomain qdomain m servers)
    (hwins : LongestWins kind qdomain m servers)
    (hservers : ∀ server ∈ ownServers qdomain m servers, server.has servLiteralAddress = false)
    {last server : Server} (hlast : last ∈ ownServers qdomain m servers)
    (hresolv : last.has servUseResolv = true) (hmem : server ∈ servers) :
    server.appliesNodots qdomain = false := by
  refine Bool.eq_false_iff.mpr fun hnodots ↦ ?_
  obtain ⟨hfor, hdot, hempty⟩ := Server.appliesNodots_iff.mp hnodots
  have hnot : server.owns qdomain m = false := Bool.eq_false_iff.mpr fun howns ↦ by
    have hdomain := (Server.applies_iff.mp (Server.owns_iff.mp howns).1).1
    rw [h.exclusive server hmem hfor] at hdomain
    exact absurd hdomain (by simp)
  -- the entry comes last, and one for the usual servers in front of it
  set others := (servers.filter fun server ↦ !server.owns qdomain m).erase server
  set own := (ownServers qdomain m servers).erase last
  have hother : server ∈ servers.filter fun server ↦ !server.owns qdomain m :=
    List.mem_filter.mpr ⟨hmem, by simp [hnot]⟩
  have hperm : (others ++ own ++ [last] ++ [server]).Perm servers := by
    refine List.Perm.trans ?_ (ownServers_append_perm qdomain m servers)
    refine (List.perm_append_singleton server _).trans ?_
    rw [List.append_assoc]
    refine List.Perm.trans (List.Perm.append (List.perm_cons_erase hother).symm
      (perm_erase_concat hlast)) ?_
    exact List.perm_append_comm
  have hanswer :=
    @searchList_last_server kind _ _ _ h others (fun other ↦ not_owns_of_mem_erase) own last
    fun other hin ↦ by
      have hotherOwn : other ∈ ownServers qdomain m servers :=
        (perm_erase_concat hlast).mem_iff.mp hin
      exact ⟨(mem_ownServers.mp hotherOwn).1, (mem_ownServers.mp hotherOwn).2,
        hservers other hotherOwn⟩
  have htype : (searchList kind qdomain (others ++ own ++ [last])).type ≠ servHasDomain := by
    rw [hanswer.type, Server.searchType_of_owns (mem_ownServers.mp hlast).2, hresolv]
    decide
  have hfinal : (searchList kind qdomain (others ++ own ++ [last] ++ [server])).type =
    servForNodots := by
    rw [searchList_concat]
    unfold searchServer
    rw [if_pos ⟨hfor, htype, hdot, hempty⟩]
  obtain ⟨selected, -, hselected, -, hselectedType⟩ := hwins.selects _ hperm
  rw [hfinal, Server.searchType_of_owns hselected] at hselectedType
  split_ifs at hselectedType <;> exact absurd hselectedType (by decide)

theorem answersAgree (h : LongestDomain qdomain m servers)
    (hkind : OneKind (ownServers qdomain m servers)) (hwins : LongestWins kind qdomain m servers) :
    AnswersAgree kind qdomain m servers := by
  refine ⟨?_, ?_, ?_, ?_⟩
  · exact fun left hleft right hright hleftOwns hrightOwns ↦
      families_agree h hwins (mem_ownServers.mpr ⟨hleft, hleftOwns⟩)
        (mem_ownServers.mpr ⟨hright, hrightOwns⟩)
  · rintro ⟨sample, hsample, hsampleOwns, hliteral⟩ hnone stray hmem happlies
    obtain ⟨haddress, -⟩ := hkind.resolve_right fun hservers ↦ by
      rw [hservers sample (mem_ownServers.mpr ⟨hsample, hsampleOwns⟩)] at hliteral
      cases hliteral
    exact stray_gives_not h hwins haddress hnone hmem happlies
  · intro left hleft right hright hleftOwns hrightOwns
    have hleftOwn := mem_ownServers.mpr ⟨hleft, hleftOwns⟩
    have hrightOwn := mem_ownServers.mpr ⟨hright, hrightOwns⟩
    rcases hkind with ⟨haddress, -⟩ | hservers
    · have hleft := Server.isAddress_iff.mp (haddress left hleftOwn)
      have hright := Server.isAddress_iff.mp (haddress right hrightOwn)
      exact ⟨hleft.2.1.trans hright.2.1.symm, hleft.2.2.trans hright.2.2.symm⟩
    · exact servers_alike h hwins hservers hleftOwn hrightOwn
  · rintro ⟨last, hlast, hlastOwns, hresolv⟩ server hmem
    have hlastOwn := mem_ownServers.mpr ⟨hlast, hlastOwns⟩
    have hservers := hkind.resolve_left fun haddress ↦ by
      rw [(Server.isAddress_iff.mp (haddress.1 last hlastOwn)).2.2] at hresolv
      cases hresolv
    exact nodots_applies_not h hwins hservers hlastOwn hresolv hmem

/-- For every configuration and every query, the entries for the longest domain decide what becomes
of it, in every order of the list: that is so if and only if the entries agree. -/
theorem longestWins_iff (h : LongestDomain qdomain m servers)
    (hkind : OneKind (ownServers qdomain m servers)) :
    LongestWins kind qdomain m servers ↔ AnswersAgree kind qdomain m servers :=
  ⟨answersAgree h hkind, longestWins h hkind⟩

end Agreement

/-- `--address=/org/1.2.3.4`. -/
def orgAddress : Server :=
  { number := 0, addr := ⟨.inet, 0, [1, 2, 3, 4]⟩, flags := servHasDomain ||| servLiteralAddress,
    domain := [111, 114, 103]
    sfd := none }

/-- `--address=/a.org/::1`. -/
def subAddress : Server :=
  { number := 1, addr := ⟨.inet6, 0, [0, 0, 0, 0, 0, 0, 0, 0, 0, 0, 0, 0, 0, 0, 0, 1]⟩
    flags := servHasDomain ||| servLiteralAddress, domain := [97, 46, 111, 114, 103], sfd := none }

theorem longestDomain_sub : LongestDomain [97, 46, 111, 114, 103] 5 [orgAddress, subAddress] :=
  ⟨by decide, by decide, ⟨subAddress, by decide⟩⟩

/-- A query for the IPv6 address. -/
theorem longestWins_iff_sub : LongestWins ⟨false, true, false⟩ [97, 46, 111, 114, 103] 5
    [orgAddress, subAddress] :=
  (longestWins_iff longestDomain_sub (.inl ⟨by decide, by decide⟩)).mpr
    ⟨by decide, by decide, by decide, by decide⟩

/-- A query for the IPv4 address of `a.org` is answered with that of `org`. -/
theorem not_longestWins_sub :
    (searchList ⟨true, false, false⟩ [97, 46, 111, 114, 103] [orgAddress, subAddress]).flags = .ipv4
      [1, 2, 3, 4] ∧
      ¬LongestWins ⟨true, false, false⟩ [97, 46, 111, 114, 103] 5 [orgAddress, subAddress] := by
  have hflags : (finishSearch false false ⟨true, false, false⟩ [97, 46, 111, 114, 103]
      (searchList ⟨true, false, false⟩ [97, 46, 111, 114, 103] [orgAddress, subAddress])).flags =
        .ipv4 [1, 2, 3, 4] := by
    decide
  refine ⟨by decide, fun hwins ↦ ?_⟩
  obtain ⟨server, hmem, howns, -, hliteral⟩ :=
    hwins.address _ (List.Perm.refl _) false false (by rw [hflags]; rfl)
  rw [hflags] at hliteral
  revert server
  decide

end CrossBreeder.Dnsmasq
