import CrossBreeder.Dnsmasq.DhcpReply
import CrossBreeder.Dnsmasq.OptionLookups

/-!
# The options of a request

`dhcp_reply` knows a packet by what its lookups find. `DhcpRequest.withOptions` is a request with
the numbers, addresses and whole options of a packet, and `dhcpReply_congr` says that what
`dhcp_reply` does depends on these only by the bytes that its lookups read.
-/

namespace CrossBreeder.Dnsmasq

variable {mess other : Received} {stop size opt minsize p : ℕ}

/-! ### What a search depends on -/

theorem optionFind1_congr
    (hagree : ∀ a ∈ (optionFind1 mess stop opt minsize p).2, other a = mess a) :
    optionFind1 other stop opt minsize p = optionFind1 mess stop opt minsize p := by
  fun_induction optionFind1 mess stop opt minsize p <;> rw [optionFind1] <;>
    simp_all +zetaDelta [Wanted, Received.optionLen, -not_lt, -Nat.not_lt]

theorem fieldSearch_congr {overload start : ℕ} {bit : UInt8}
    (hagree : ∀ a ∈ (fieldSearch mess opt minsize overload bit start stop).2, other a = mess a) :
    fieldSearch other opt minsize overload bit start stop =
      fieldSearch mess opt minsize overload bit start stop := by
  unfold fieldSearch at hagree ⊢
  split_ifs at hagree with hbit
  · have hrest := optionFind1_congr fun a ha ↦ hagree a (List.mem_cons_of_mem _ ha)
    rw [hagree _ List.mem_cons_self, if_pos hbit, if_pos hbit, hrest]
  · rw [hagree _ List.mem_cons_self, if_neg hbit, if_neg hbit]

theorem SearchResult.orElse_congr {first first' next next' : SearchResult}
    (hfirst : (∀ a ∈ first.2, other a = mess a) → first' = first)
    (hnext : (∀ a ∈ next.2, other a = mess a) → next' = next)
    (hagree : ∀ a ∈ (first.orElse next).2, other a = mess a) :
    first'.orElse next' = first.orElse next := by
  unfold orElse at hagree ⊢
  split_ifs at hagree with hsome
  · rw [hfirst hagree, if_pos hsome, if_pos hsome]
  · rw [hfirst fun a ha ↦ hagree a (List.mem_append_left _ ha),
      hnext fun a ha ↦ hagree a (List.mem_append_right _ ha), if_neg hsome]

theorem optionFind_congr (hagree : ∀ a ∈ (optionFind mess size opt minsize).2, other a = mess a) :
    optionFind other size opt minsize = optionFind mess size opt minsize := by
  refine SearchResult.orElse_congr optionFind1_congr (fun hagree ↦ ?_) hagree
  unfold overloadSearch at hagree ⊢
  cases hfound : (optionFind1 mess size optionOverload 1 searchAt).1 with
  | none =>
    rw [hfound] at hagree
    rw [optionFind1_congr hagree, hfound]
  | some o =>
    rw [hfound] at hagree
    rw [optionFind1_congr fun a ha ↦ hagree a (List.mem_append_left _ ha), hfound]
    dsimp only
    rw [fieldsSearch, SearchResult.orElse_congr fieldSearch_congr fieldSearch_congr fun a ha ↦
      hagree a (List.mem_append_right _ ha), fieldsSearch]

/-! ### What a request has -/

def Use.data (mess : Received) (o : ℕ) : Use → List UInt8
  | value offset size => bytesAt mess (optionPtr o offset) size
  | whole => bytesAt mess (optionPtr o 0) (mess.optionLen o)
  | _ => []

def OptionLookup.data (lookup : OptionLookup) (mess : Received) (size : ℕ) : Option (List UInt8) :=
  (optionFind mess size lookup.opt lookup.minsize).1.map fun o ↦
    lookup.uses.flatMap (Use.data mess o)

theorem OptionLookup.data_congr {lookup : OptionLookup}
    (hagree : ∀ a, .packet a ∈ lookup.accesses mess mess size → other a = mess a) :
    lookup.data other size = lookup.data mess size := by
  unfold accesses at hagree
  have hfind := optionFind_congr fun a ha ↦
    hagree a (List.mem_append_left _ (List.mem_map_of_mem ha))
  unfold data
  rw [hfind]
  cases hfound : (optionFind mess size lookup.opt lookup.minsize).1 with
  | none => rfl
  | some o =>
    simp only [hfound] at hagree
    refine congrArg some (List.flatMap_congr fun use huse ↦ ?_)
    have huses : ∀ a, .packet a ∈ use.accesses mess o → other a = mess a := fun a ha ↦ by
      have hmem := List.mem_append_left (lookup.subs.flatMap (SubSearch.accesses · mess o))
        (List.mem_flatMap.mpr ⟨use, huse, ha⟩)
      exact hagree a (List.mem_append_right _ hmem)
    cases use with
    | value offset n => exact List.map_congr_left fun a ha ↦ huses a (List.mem_map_of_mem ha)
    | whole =>
      have hlen : other.optionLen o = mess.optionLen o :=
        congrArg UInt8.toNat (huses (o + 1) List.mem_cons_self)
      dsimp only [Use.data]
      rw [hlen]
      exact List.map_congr_left fun a ha ↦
        huses a (List.mem_cons_of_mem _ (List.mem_map_of_mem ha))
    | copied | fqdn | identifies o | matchesBytes o | userClass | contains data | forum => rfl

def optionNumber (data : List UInt8) : ℕ := data.foldl (fun ret octet ↦ ret * 256 + octet.toNat) 0

def optionData (data : List UInt8) : Option OptionData :=
  if h : data ≠ [] ∧ data.length ≤ 255 then some ⟨data, h⟩ else none

/-- A request with the numbers, addresses and whole options that the lookups find in a packet. -/
def DhcpRequest.withOptions (request : DhcpRequest) (mess : Received) (size : ℕ) : DhcpRequest :=
  { request with
    messType := (messTypeLookup.data mess size).map optionNumber
    requestedIp := (requestedIpLookup.data mess size).map (.ofNat <| optionNumber ·)
    clientId := (clientIdLookup.data mess size).bind optionData
    hostname := (hostnameLookup.data mess size).bind optionData
    serverIdentifier := (serverIdentifierLookup.data mess size).map (.ofNat <| optionNumber ·)
    leaseTime := (leaseTimeLookup.data mess size).map (.ofNat <| optionNumber ·) }

/-- The call of `dhcp_reply` that makes these lookups. -/
def requestCall (config : ReplyConfig) (mess : Received) : ReplyCall config where
  steps := [messTypeLookup, requestedIpLookup, clientIdLookup, hostnameLookup,
    serverIdentifierLookup, leaseTimeLookup].map fun lookup ↦ ⟨lookup, mess, mess⟩
  made := by
    simp [replyLookups, messTypeLookup, requestedIpLookup, clientIdLookup, hostnameLookup,
      serverIdentifierLookup, leaseTimeLookup]

/-- A call reads the same in two buffers. -/
def ReplyCall.ReadsAlike {config : ReplyConfig} (call : ReplyCall config) (size : ℕ)
    (other : Received) : Prop :=
  ∀ step ∈ call.steps, ∀ a, .packet a ∈ step.lookup.accesses step.mess step.mess' size →
    other a = step.mess a

theorem dhcpReply_congr {config : ReplyConfig}
    (hread : (requestCall config mess).ReadsAlike size other) (env : DhcpEnv) (world : DhcpWorld)
    (s : DhcpState) (arrival : Arrival) (request : DhcpRequest) :
    dhcpReply env world s arrival (request.withOptions other size) =
      dhcpReply env world s arrival (request.withOptions mess size) := by
  have hdata : ∀ lookup, ⟨lookup, mess, mess⟩ ∈ (requestCall config mess).steps →
      lookup.data other size = lookup.data mess size := fun lookup hmem ↦
    OptionLookup.data_congr (hread ⟨lookup, mess, mess⟩ hmem)
  simp only [requestCall, List.map_cons, List.map_nil, List.mem_cons, ReplyStep.mk.injEq,
    and_true] at hdata
  unfold DhcpRequest.withOptions
  rw [hdata messTypeLookup (by simp), hdata requestedIpLookup (by simp),
    hdata clientIdLookup (by simp), hdata hostnameLookup (by simp),
    hdata serverIdentifierLookup (by simp), hdata leaseTimeLookup (by simp)]

end CrossBreeder.Dnsmasq
