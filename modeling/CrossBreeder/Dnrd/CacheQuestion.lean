import CrossBreeder.Dnrd.Cache
import CrossBreeder.Foundation.Transition
import Mathlib.Data.List.Basic

/-!
# The cache answers the question asked

A cached response is found by the text of the question name, its type and its class. The text is
made of the labels joined by dots and cut at the first zero byte, so it determines the labels only
when no label holds a dot or a zero and the name is not the root, for which the text is whatever the
stack held.

`CacheInv` says that every entry is keyed by the labels of the packet it holds; it is kept by all
operations on plain packets (`cacheInv_step`), and `cacheLookup_same_question` concludes that along
such runs a hit carries the question of the query.
-/

namespace CrossBreeder.Dnrd

open Foundation

/-! ### Keys and labels -/

/-- Labels without a dot and without a zero byte, at least one of them. -/
def PlainLabels (labels : List (List UInt8)) : Prop :=
  labels ≠ [] ∧ ∀ label ∈ labels, 46 ∉ label ∧ 0 ∉ label

def PlainName (msg : Packet) : Prop :=
  ∀ labels last, NameAt msg packetDatabegin labels last → PlainLabels labels

/-- Decoding the question name of a packet does not read its two id bytes as length or pointer. -/
def SteadyName (msg : Packet) : Prop :=
  ∀ visited, OnName msg packetDatabegin visited → 2 ≤ visited

def dottedKey (labels : List (List UInt8)) : List UInt8 := (dotted labels).dropLast.map toLower

theorem append_dot_cancel {x x' y y' : List UInt8} (hx : 46 ∉ x) (hx' : 46 ∉ x')
    (h : x ++ 46 :: y = x' ++ 46 :: y') : x = x' ∧ y = y' := by
  induction x generalizing x' with
  | nil =>
    cases x' with
    | nil => simpa using h
    | cons byte x' =>
      have hbyte : (46 : UInt8) = byte := (List.cons.inj h).1
      exact absurd (by simp [hbyte]) hx'
  | cons byte x ih =>
    cases x' with
    | nil =>
      have hbyte : byte = 46 := (List.cons.inj h).1
      exact absurd (by simp [hbyte]) hx
    | cons byte' x' =>
      simp only [List.mem_cons, not_or] at hx hx'
      obtain ⟨hbyte, hrest⟩ := List.cons.inj h
      obtain ⟨rfl, rfl⟩ := ih hx.2 hx'.2 hrest
      exact ⟨by rw [hbyte], rfl⟩

variable {labels labels' : List (List UInt8)}

theorem dotted_injective (hdot : ∀ label ∈ labels, 46 ∉ label)
    (hdot' : ∀ label ∈ labels', 46 ∉ label) (h : dotted labels = dotted labels') :
    labels = labels' := by
  induction labels generalizing labels' with
  | nil =>
    cases labels' with
    | nil => rfl
    | cons label labels' => simp at h
  | cons label labels ih =>
    cases labels' with
    | nil => simp at h
    | cons label' labels' =>
      rw [dotted_cons, dotted_cons] at h
      obtain ⟨rfl, hrest⟩ := append_dot_cancel (hdot label (by simp)) (hdot' label' (by simp)) h
      rw [ih (fun l hl ↦ hdot l (by simp [hl])) (fun l hl ↦ hdot' l (by simp [hl])) hrest]

theorem dot_notMem_map_toLower {label : List UInt8} (h : 46 ∉ label) :
    46 ∉ label.map toLower := by
  simp only [List.mem_map, not_exists, not_and]
  intro byte hbyte hdot
  rw [toLower_eq_iff (by decide)] at hdot
  exact h (hdot ▸ hbyte)

theorem map_toLower_dotted (labels : List (List UInt8)) :
    (dotted labels).map toLower = dotted (labels.map (List.map toLower)) := by
  induction labels with
  | nil => rfl
  | cons label labels ih =>
    have hdot : toLower 46 = 46 := rfl
    simp [ih, hdot]

variable {labels : List (List UInt8)}

theorem dotted_ne_nil (h : labels ≠ []) : dotted labels ≠ [] := by
  cases labels with
  | nil => exact absurd rfl h
  | cons label labels => simp

theorem dotted_concat (front : List (List UInt8)) (last : List UInt8) :
    dotted (front ++ [last]) = dotted front ++ last ++ [46] := by
  simp [dotted]

theorem dropLast_dotted_append (h : labels ≠ []) :
    (dotted labels).dropLast ++ [46] = dotted labels := by
  obtain rfl | ⟨front, last, rfl⟩ := List.eq_nil_or_concat labels
  · exact absurd rfl h
  · rw [List.concat_eq_append, dotted_concat, List.dropLast_concat]

theorem getLast?_dropLast_dotted (hplain : PlainLabels labels)
    (hnonempty : ∀ label ∈ labels, label ≠ []) : (dotted labels).dropLast.getLast? ≠ some 46 := by
  obtain rfl | ⟨front, last, rfl⟩ := List.eq_nil_or_concat labels
  · exact absurd rfl hplain.1
  · rw [List.concat_eq_append] at *
    have hlast := hnonempty last (by simp)
    rw [dotted_concat, List.dropLast_concat, List.getLast?_append_of_ne_nil _ hlast,
      List.getLast?_eq_some_getLast hlast]
    intro hdot
    exact (hplain.2 last (by simp)).1 (Option.some.inj hdot ▸ List.getLast_mem hlast)

theorem dottedKey_injective (hplain : PlainLabels labels)
    (hplain' : PlainLabels labels') (h : dottedKey labels = dottedKey labels') :
    labels.map (List.map toLower) = labels'.map (List.map toLower) := by
  have hlower : ∀ {ls : List (List UInt8)}, PlainLabels ls →
      dottedKey ls ++ [46] = dotted (ls.map (List.map toLower)) := by
    intro ls hls
    have hdot : toLower 46 = 46 := rfl
    rw [← map_toLower_dotted, ← dropLast_dotted_append hls.1, List.map_append, dottedKey]
    simp [hdot]
  have hfree : ∀ {ls : List (List UInt8)}, PlainLabels ls →
      ∀ label ∈ ls.map (List.map toLower), 46 ∉ label := by
    intro ls hls label hlabel
    obtain ⟨original, horiginal, rfl⟩ := List.mem_map.mp hlabel
    exact dot_notMem_map_toLower (hls.2 original horiginal).1
  exact dotted_injective (hfree hplain) (hfree hplain')
    (by rw [← hlower hplain, ← hlower hplain', h])

/-! ### The question read from a packet -/

/-- What `parse_query` returns for a packet: it has a question of that type and class, and a plain
name gives the key of its labels. -/
theorem parseQuery_spec {order : ByteOrder} {stack : List UInt8} {msg : Packet} {query : Rr}
    (h : parseQuery order stack msg = some query) :
    ∃ labels last, NameAt msg packetDatabegin labels last ∧ last + 4 ≤ msg.length ∧
      query.type = shortAt msg last ∧ query.cls = shortAt msg (last + 2) ∧
      (PlainLabels labels → query.name = dottedKey labels) := by
  unfold parseQuery at h
  split_ifs at h with hcount
  cases hname : getObjname msg packetDatabegin rrNamesize with
  | none => simp [hname] at h
  | some result =>
    obtain ⟨dest, last⟩ := result
    obtain ⟨labels, hlabels, rfl, hshort⟩ := getObjname_spec (by decide) hname
    simp only [hname] at h
    by_cases hlength : msg.length < last + 4
    · simp [hlength] at h
    rw [if_neg hlength] at h
    obtain rfl := Option.some.inj h
    refine ⟨labels, last, hlabels, by omega, rfl, rfl, fun hplain ↦ ?_⟩
    have hne := dotted_ne_nil hplain.1
    have hzero : (0 : UInt8) ∉ (dotted labels).dropLast := by
      intro hmem
      obtain ⟨label, hlabel, hbyte⟩ := List.mem_flatMap.mp (List.dropLast_subset _ hmem)
      have hcases : 0 ∈ label ∨ (0 : UInt8) = 46 := by simpa using hbyte
      exact hcases.elim (hplain.2 label hlabel).2 (by decide)
    have hlong : (dotted labels).dropLast.length ≤ rrNamesize + 1 := by
      rw [List.length_dropLast]
      omega
    have hdot := getLast?_dropLast_dotted hplain fun label hlabel ↦
      List.ne_nil_of_length_pos (hlabels.label_length label hlabel).1
    simp only [if_neg hne, cstr_of_zero_notMem hzero, stripDot, if_neg hdot, strnlwr]
    rw [List.take_of_length_le hlong, List.drop_eq_nil_of_le hlong, List.append_nil, dottedKey]

/-! ### Runs of the cache -/

inductive CacheOp
  | store (stack : List UInt8) (packet : Packet) (server : SrvId) (now : ℕ)
  | expire (now : ℕ)
  | lookup (doms : List DomNode) (stack buffer : List UInt8) (len now : ℕ)

/-- One operation: `cache_dnspacket`, `cache_expire` or `cache_lookup`. -/
def cacheStep (cfg : Config) (cache : Cache) : CacheOp → Cache
  | .store stack packet server now => cacheDnspacket cfg stack packet server now cache
  | .expire now => cacheExpire cfg now cache
  | .lookup doms stack buffer len now => (cacheLookup cfg doms stack buffer len now cache).cache

def cacheSystem (cfg : Config) : System Cache CacheOp where
  initial := fun cache ↦ cache = emptyCache
  step := fun cache op next ↦ next = cacheStep cfg cache op

/-- The operations on plain names: a stored response has a plain question name that stays clear of
the id bytes, and a query that is looked up has a plain question name. -/
def PlainOp (_ : Cache) : CacheOp → Prop
  | .store _ packet _ _ => PlainName packet ∧ SteadyName packet
  | .expire _ => True
  | .lookup _ _ buffer len _ => PlainName (buffer.take len)

/-- An entry is keyed by the labels of the question of its packet. -/
def KeyedEntry (cx : CacheEntry) : Prop :=
  ∃ labels last, NameAt cx.p.packet packetDatabegin labels last ∧ last + 4 ≤ cx.p.packet.length ∧
    cx.type = shortAt cx.p.packet last ∧ cx.cls = shortAt cx.p.packet (last + 2) ∧
    PlainLabels labels ∧ cx.name = dottedKey labels ∧ SteadyName cx.p.packet

def CacheInv (cache : Cache) : Prop := ∀ cx ∈ cache.entries, KeyedEntry cx

variable {cx : CacheEntry}

theorem keyedEntry_touchCx (now : ℕ) (h : KeyedEntry cx) :
    KeyedEntry (touchCx now cx) := by
  unfold touchCx
  split_ifs
  · exact h
  · exact h

/-- A hit is an entry of the list that answers the question, and the list it leaves differs from the
old one only in the hit, which is touched. -/
theorem searchCx_spec {query : Rr} {now : ℕ} {entries rest : List CacheEntry}
    (h : searchCx query now entries = some (cx, rest)) :
    cx ∈ entries ∧ cacheMatches query cx = true ∧
      ∀ other ∈ rest, other ∈ entries ∨ other = touchCx now cx := by
  induction entries generalizing rest with
  | nil => simp [searchCx] at h
  | cons head entries ih =>
    simp only [searchCx] at h
    split_ifs at h with hmatch
    · obtain ⟨rfl, rfl⟩ : head = cx ∧ touchCx now head :: entries = rest := by simpa using h
      refine ⟨by simp, hmatch, fun other hother ↦ ?_⟩
      rcases List.mem_cons.mp hother with rfl | hother
      · exact Or.inr rfl
      · exact Or.inl (List.mem_cons_of_mem _ hother)
    · obtain ⟨⟨hit, tail⟩, hsearch, heq⟩ := Option.map_eq_some_iff.mp h
      obtain ⟨rfl, rfl⟩ : hit = cx ∧ head :: tail = rest := by simpa using heq
      obtain ⟨hmem, hmatches, hrest⟩ := ih hsearch
      refine ⟨List.mem_cons_of_mem _ hmem, hmatches, fun other hother ↦ ?_⟩
      rcases List.mem_cons.mp hother with rfl | hother
      · exact Or.inl List.mem_cons_self
      · exact (hrest other hother).imp_left (List.mem_cons_of_mem _)

variable {cfg : Config}

theorem mem_of_mem_expireOldest {entries : List CacheEntry}
    (h : cx ∈ expireOldest cfg entries) : cx ∈ entries := by
  obtain ⟨⟨entry, index⟩, hentry, rfl⟩ := List.mem_map.mp h
  exact List.fst_mem_of_mem_zipIdx (List.mem_of_mem_filter hentry)

variable {cache : Cache}

theorem mem_of_mem_cacheExpire {now : ℕ}
    (h : cx ∈ (cacheExpire cfg now cache).entries) : cx ∈ cache.entries := by
  unfold cacheExpire at h
  generalize (if cache.lastexpire = 0 then now else cache.lastexpire) = lastexpire at h
  dsimp only at h
  split_ifs at h
  · exact h
  · exact h
  · exact List.mem_of_mem_filter (mem_of_mem_expireOldest h)
  · exact List.mem_of_mem_filter h

theorem cacheInv_store {stack : List UInt8} {packet : Packet} {server : SrvId}
    {now : ℕ} (hplain : PlainName packet) (hsteady : SteadyName packet)
    (hinv : CacheInv cache) : CacheInv (cacheDnspacket cfg stack packet server now cache) := by
  unfold cacheDnspacket
  split_ifs
  · exact hinv
  cases hparse : parseQuery cfg.order stack packet with
  | none => exact hinv
  | some query =>
    obtain ⟨labels, last, hname, hlength, htype, hcls, hkey⟩ := parseQuery_spec hparse
    have hlabels := hplain labels last hname
    dsimp only
    split_ifs
    · exact hinv
    · intro cx hcx
      rcases List.mem_append.mp hcx with hold | hnew
      · exact hinv cx hold
      · obtain rfl := List.mem_singleton.mp hnew
        exact ⟨labels, last, hname, hlength, htype, hcls, hlabels, hkey hlabels, hsteady⟩
    · exact hinv

theorem cacheInv_lookup {doms : List DomNode} {stack buffer : List UInt8}
    {len now : ℕ} (hinv : CacheInv cache) :
    CacheInv (cacheLookup cfg doms stack buffer len now cache).cache := by
  unfold cacheLookup
  split_ifs
  · exact hinv
  cases parseQuery cfg.order stack (buffer.take len) with
  | none => exact hinv
  | some query =>
    dsimp only
    split_ifs
    · exact hinv
    cases hsearch : searchCx query now cache.entries with
    | none => exact hinv
    | some hit =>
      obtain ⟨cx, rest⟩ := hit
      obtain ⟨hmem, -, hrest⟩ := searchCx_spec hsearch
      intro other hother
      rcases hrest other hother with hold | rfl
      · exact hinv other hold
      · exact keyedEntry_touchCx now (hinv cx hmem)

theorem cacheInv_step {op : CacheOp} (hplain : PlainOp cache op)
    (hinv : CacheInv cache) : CacheInv (cacheStep cfg cache op) := by
  cases op with
  | store stack packet server now => exact cacheInv_store hplain.1 hplain.2 hinv
  | expire now => exact fun cx hcx ↦ hinv cx (mem_of_mem_cacheExpire hcx)
  | lookup doms stack buffer len now => exact cacheInv_lookup hinv

theorem cacheInv_of_reachable
    (hreach : Reachable (cacheSystem cfg) PlainOp cache) : CacheInv cache := by
  refine hreach.invariant CacheInv (fun cache hinitial ↦ ?_)
    fun cache op next _ hinv hplain hstep ↦ ?_
  · intro cx hcx
    rw [show cache = emptyCache from hinitial] at hcx
    exact absurd hcx (by simp [emptyCache])
  · rw [show next = cacheStep cfg cache op from hstep]
    exact cacheInv_step hplain hinv

/-! ### A hit carries the question of the query -/

/-- The first bytes of a buffer into which a packet was copied from its third byte on: the packet
with the id bytes of the buffer. -/
theorem take_overlay {buffer packet : List UInt8} (hbuffer : 2 ≤ buffer.length)
    (hpacket : 2 ≤ packet.length) :
    (overlay buffer 2 (packet.drop 2)).take packet.length = buffer.take 2 ++ packet.drop 2 := by
  unfold overlay
  rw [List.take_append_of_le_length, List.take_of_length_le]
  · simp only [List.length_append, List.length_take, List.length_drop]
    omega
  · simp only [List.length_append, List.length_take, List.length_drop]
    omega

/-- A packet whose question name stays clear of the id bytes keeps its question when they are
replaced. -/
theorem hasQuestion_replace_id {packet : Packet} (hsteady : SteadyName packet)
    {question : Question} (h : HasQuestion packet question) (first second : UInt8) :
    HasQuestion (first :: second :: packet.drop 2) question := by
  obtain ⟨last, hname, hlength, htype, hcls⟩ := h
  have hstart : 12 < last := hname.lt_last
  have hshort : ∀ offset, 2 ≤ offset →
      shortAt (first :: second :: packet.drop 2) offset = shortAt packet offset := by
    intro offset hoffset
    obtain ⟨rest, rfl⟩ := Nat.exists_eq_add_of_le' hoffset
    simp [shortAt, byteAt, List.getD_eq_getElem?_getD, Nat.add_comm 2]
  have hlen : (first :: second :: packet.drop 2).length = packet.length := by
    simp only [List.length_cons, List.length_drop]
    omega
  refine ⟨last, hname.of_drop_eq hlen (by simp) hsteady, by rw [hlen]; exact hlength, ?_, ?_⟩
  · rw [hshort last (by omega), htype]
  · rw [hshort (last + 2) (by omega), hcls]

/-- A lookup that returns a response has found an entry that answers the question and has copied its
packet into the buffer. -/
theorem cacheLookup_hit {doms : List DomNode} {stack buffer : List UInt8}
    {len now : ℕ} (h : 0 < (cacheLookup cfg doms stack buffer len now cache).len) :
    ∃ query cx, parseQuery cfg.order stack (buffer.take len) = some query ∧ cx ∈ cache.entries ∧
      cacheMatches query cx = true ∧
      (cacheLookup cfg doms stack buffer len now cache).len = cx.p.packet.length ∧
      (cacheLookup cfg doms stack buffer len now cache).buffer =
        overlay buffer 2 (cx.p.packet.drop 2) := by
  unfold cacheLookup at h ⊢
  split_ifs at h ⊢ with honoff
  · simp at h
  cases hparse : parseQuery cfg.order stack (buffer.take len) with
  | none => simp [hparse] at h
  | some query =>
    simp only [hparse] at h ⊢
    split_ifs at h ⊢ with huse
    · simp at h
    cases hsearch : searchCx query now cache.entries with
    | none => simp [hsearch] at h
    | some hit =>
      obtain ⟨cx, rest⟩ := hit
      obtain ⟨hmem, hmatch, -⟩ := searchCx_spec hsearch
      simp only [hsearch] at h ⊢
      split_ifs at h ⊢ with hinactive
      · simp at h
      · exact ⟨query, cx, rfl, hmem, hmatch, rfl, rfl⟩

theorem map_toLower_dottedKey (labels : List (List UInt8)) :
    (dottedKey labels).map toLower = dottedKey labels := by
  rw [dottedKey, List.map_map, show toLower ∘ toLower = toLower from funext toLower_toLower]

/-- In every run of the cache on plain names, a lookup that returns a response leaves in the buffer
a packet whose question is that of the query: the same labels up to letter case, the same type and
class. Assumes: the question name of the query and those of the responses stored before consist of
labels without dot and zero bytes, at least one, and decoding a stored name does not run through the
id bytes. -/
theorem cacheLookup_same_question (cfg : Config) {cache : Cache}
    (hreach : Reachable (cacheSystem cfg) PlainOp cache) (doms : List DomNode)
    (stack buffer : List UInt8) (len now : ℕ)
    (hplain : PlainOp cache (.lookup doms stack buffer len now))
    (hhit : 0 < (cacheLookup cfg doms stack buffer len now cache).len) :
    ∃ asked given, HasQuestion (buffer.take len) asked ∧
      HasQuestion ((cacheLookup cfg doms stack buffer len now cache).buffer.take
        (cacheLookup cfg doms stack buffer len now cache).len) given ∧ asked.Same given := by
  obtain ⟨query, cx, hparse, hmem, hmatch, hlen, hbuffer⟩ := cacheLookup_hit hhit
  obtain ⟨labels, last, hname, hlength, htype, hcls, hkey⟩ := parseQuery_spec hparse
  obtain ⟨labels', last', hname', hlength', htype', hcls', hlabels', hkey', hsteady⟩ :=
    cacheInv_of_reachable hreach cx hmem
  have hlabels := hplain labels last hname
  have hstart : 12 < last := hname.lt_last
  have hstart' : 12 < last' := hname'.lt_last
  have htake : (buffer.take len).length ≤ buffer.length := List.length_take_le' len buffer
  have hstored : HasQuestion cx.p.packet ⟨labels', cx.type, cx.cls⟩ :=
    ⟨last', hname', hlength', htype', hcls'⟩
  refine ⟨⟨labels, query.type, query.cls⟩, ⟨labels', cx.type, cx.cls⟩,
    ⟨last, hname, hlength, htype, hcls⟩, ?_, ?_⟩
  · rw [hlen, hbuffer, take_overlay (by omega) (by omega)]
    have hbound : 2 ≤ buffer.length := by omega
    obtain ⟨first, second, rest, rfl⟩ : ∃ first second rest, buffer = first :: second :: rest := by
      rcases buffer with _ | ⟨first, _ | ⟨second, rest⟩⟩
      · exact absurd hbound (by decide)
      · exact absurd hbound (Nat.not_succ_le_self 1)
      · exact ⟨first, second, rest, rfl⟩
    exact hasQuestion_replace_id hsteady hstored first second
  · simp only [cacheMatches, strcasecmpEq, decide_eq_true_eq] at hmatch
    obtain ⟨-, hmatchType, hmatchCls, hmatchName⟩ := hmatch
    rw [hkey hlabels, hkey', map_toLower_dottedKey, map_toLower_dottedKey] at hmatchName
    exact ⟨(dottedKey_injective hlabels' hlabels hmatchName).symm, hmatchType.symm, hmatchCls.symm⟩

/-- A response to a type A question with the given wire name, carrying one address. -/
def addressReply (name : List UInt8) : Packet :=
  [0, 1, 0x81, 0x80, 0, 1, 0, 1, 0, 0, 0, 0] ++ name ++ [0, 1, 0, 1] ++
    [0xc0, 0x0c, 0, 1, 0, 1, 0, 0, 0x0e, 0x10, 0, 4, 10, 0, 0, 1]

def addressQuery (name : List UInt8) : Packet :=
  [0, 2, 1, 0, 0, 1, 0, 0, 0, 0, 0, 0] ++ name ++ [0, 1, 0, 1]

theorem nameAt_addressReply : NameAt (addressReply [1, 97, 0]) 12 [[97]] 15 :=
  .label (by decide) (by decide) (by decide) (.root (by decide) (by decide))

theorem nameAt_addressQuery : NameAt (addressQuery [1, 97, 0]) 12 [[97]] 15 :=
  .label (by decide) (by decide) (by decide) (.root (by decide) (by decide))

theorem plainLabels_single : PlainLabels [[97]] := by
  simp [PlainLabels]

theorem steadyName_addressReply : SteadyName (addressReply [1, 97, 0]) := by
  intro visited hvisited
  cases hvisited with
  | here => decide
  | label _ _ hrest =>
    have hrest : OnName (addressReply [1, 97, 0]) 14 visited := hrest
    cases hrest with
    | here => decide
    | label hpos => exact absurd hpos (by decide)
    | pointer hptr => exact absurd hptr (by decide)
  | pointer hptr => exact absurd hptr (by decide)

/-- The cache after the response for the label `a` was stored. -/
def storedOnce : Cache :=
  cacheStep defaultConfig emptyCache (.store [] (addressReply [1, 97, 0]) ⟨0, 1⟩ 1000)

/-- The query for the label `a` gets the stored response, and it is a response to that question. -/
theorem cacheLookup_same_question_single :
    ∃ asked given, HasQuestion ((addressQuery [1, 97, 0]).take 19) asked ∧
      HasQuestion ((cacheLookup defaultConfig [] [] (addressQuery [1, 97, 0]) 19 1001
        storedOnce).buffer.take (cacheLookup defaultConfig [] [] (addressQuery [1, 97, 0]) 19 1001
        storedOnce).len) given ∧ asked.Same given := by
  have hstore : PlainOp emptyCache (.store [] (addressReply [1, 97, 0]) ⟨0, 1⟩ 1000) := by
    refine ⟨fun labels last hname ↦ ?_, steadyName_addressReply⟩
    rw [(hname.unique nameAt_addressReply).1]
    exact plainLabels_single
  have hreach : Reachable (cacheSystem defaultConfig) PlainOp storedOnce :=
    .step (.start rfl) hstore rfl
  refine cacheLookup_same_question defaultConfig hreach [] [] (addressQuery [1, 97, 0]) 19 1001
    (fun labels last hname ↦ ?_) (by decide)
  rw [(hname.unique nameAt_addressQuery).1]
  exact plainLabels_single

/-- The response stored for the one label `a.b` is given to the query for the two labels `a` and
`b`: the cache reached by storing it answers another question than the one asked. -/
theorem dot_in_label_hits :
    ∃ cache, Reachable (cacheSystem defaultConfig) (fun _ _ ↦ True) cache ∧
      0 < (cacheLookup defaultConfig [] [] (addressQuery [1, 97, 1, 98, 0]) 21 1001 cache).len ∧
      ¬ ∃ asked given, HasQuestion ((addressQuery [1, 97, 1, 98, 0]).take 21) asked ∧
        HasQuestion ((cacheLookup defaultConfig [] [] (addressQuery [1, 97, 1, 98, 0]) 21 1001
          cache).buffer.take (cacheLookup defaultConfig [] [] (addressQuery [1, 97, 1, 98, 0]) 21
          1001 cache).len) given ∧ asked.Same given := by
  refine ⟨cacheStep defaultConfig emptyCache
    (.store [] (addressReply [3, 97, 46, 98, 0]) ⟨0, 1⟩ 1000),
    .step (.start rfl) trivial rfl, by decide, ?_⟩
  rintro ⟨asked, given, ⟨last, hasked, -⟩, ⟨last', hgiven, -⟩, hsame, -⟩
  have hquery : NameAt (addressQuery [1, 97, 1, 98, 0]) 12 [[97], [98]] 17 :=
    .label (by decide) (by decide) (by decide)
      (.label (by decide) (by decide) (by decide) (.root (by decide) (by decide)))
  have hreply : NameAt ([0, 2] ++ (addressReply [3, 97, 46, 98, 0]).drop 2) 12 [[97, 46, 98]] 17 :=
    .label (by decide) (by decide) (by decide) (.root (by decide) (by decide))
  rw [(hasked.unique hquery).1, (hgiven.unique hreply).1] at hsame
  exact absurd hsame (by decide)

end CrossBreeder.Dnrd
