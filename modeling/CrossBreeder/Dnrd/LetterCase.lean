import CrossBreeder.Dnrd.PendingQueries

/-!
# Letter case in question names

Two requests that differ only in the letter case of the question name. The master and the cache work
on the name that `parse_query` turns into lower case, and `parseQuery_congr` says that the two
requests have the same one. `handleQuery_sameDecision_iff` says when `handle_query`, which compares
the bytes as they are, decides the same for both, and `capital_letters_change_domain` is a pair of
requests for which it does not.
-/

namespace CrossBreeder.Dnrd

open Foundation

/-- Two packets that differ only in the letter case of the question name: every byte that differs is
a character of a label of the name, and the same letter in the other case. Bytes that say how the
packet is read, which compression pointers can place inside a label, do not differ: the header,
the length and pointer bytes of the name, and type and class. -/
structure CaseVariant (left right : Packet) : Prop where
  lower : left.map toLower = right.map toLower
  name : ∀ offset, left[offset]? ≠ right[offset]? → ∃ start, OnName left packetDatabegin start ∧
    byteAt left start < 64 ∧ start < offset ∧ offset ≤ start + byteAt left start
  header : ∀ offset < packetDatabegin, left[offset]? = right[offset]?
  control : ∀ offset, OnName left packetDatabegin offset → left[offset]? = right[offset]? ∧
    (192 ≤ byteAt left offset → left[offset + 1]? = right[offset + 1]?)
  question : ∀ labels last, NameAt left packetDatabegin labels last → ∀ offset, last ≤ offset →
    offset < last + 4 → left[offset]? = right[offset]?

variable {left right : Packet}

theorem byteAt_congr {offset : ℕ} (h : left[offset]? = right[offset]?) :
    byteAt left offset = byteAt right offset := by
  simp only [byteAt, List.getD_eq_getElem?_getD, h]

theorem shortAt_congr {offset : ℕ} (h : left[offset]? = right[offset]?)
    (h' : left[offset + 1]? = right[offset + 1]?) : shortAt left offset = shortAt right offset := by
  simp only [shortAt, byteAt_congr h, byteAt_congr h']

/-! ### Decoding in lockstep -/

/-- A decoded name with its text in lower case. -/
def loweredName (result : Option (List UInt8 × ℕ)) : Option (List UInt8 × ℕ) :=
  result.map fun name ↦ (name.1.map toLower, name.2)

/-- The decoding loop on two packets that agree up to letter case and agree on the bytes that
control the decoding. -/
theorem getObjnameLoop_congr (hlower : left.map toLower = right.map toLower)
    {destsize : ℕ} (fuel : ℕ) :
    ∀ {i : ℕ} {dest dest' : List UInt8} (depth compressed : ℕ),
      (∀ offset, OnName left i offset → left[offset]? = right[offset]? ∧
        (192 ≤ byteAt left offset → left[offset + 1]? = right[offset + 1]?)) →
      dest.map toLower = dest'.map toLower →
      loweredName (getObjnameLoop left destsize fuel i dest depth compressed) =
        loweredName (getObjnameLoop right destsize fuel i dest' depth compressed) := by
  have hlength : left.length = right.length := by simpa using congrArg List.length hlower
  induction fuel with
  | zero => exact fun _ _ _ _ ↦ rfl
  | succ fuel ih =>
    intro i dest dest' depth compressed hcontrol hdest
    have hbyte := byteAt_congr (hcontrol i (.here i)).1
    have hwritten : dest.length = dest'.length := by simpa using congrArg List.length hdest
    have hvalid : ∀ label : List UInt8, label.all validChar = true := fun label ↦
      List.all_eq_true.mpr fun char _ ↦ validChar_eq_true char
    simp only [getObjnameLoop, hbyte, hlength, hwritten, hvalid, if_true]
    by_cases hzero : byteAt right i = 0
    · rw [if_pos hzero, if_pos hzero]
      simp [loweredName, hdest]
    rw [if_neg hzero, if_neg hzero]
    by_cases hend : right.length ≤ i + 1
    · rw [if_pos hend, if_pos hend]
    rw [if_neg hend, if_neg hend]
    by_cases hptr : 192 ≤ byteAt right i
    · have hptr' : 192 ≤ byteAt left i := by omega
      have htarget : pointerTarget left i = pointerTarget right i := by
        simp only [pointerTarget, hbyte, byteAt_congr ((hcontrol i (.here i)).2 hptr')]
      rw [if_pos hptr, if_pos hptr, htarget]
      split_ifs
      · rfl
      · rfl
      · refine ih _ _ (fun offset hon ↦ ?_) hdest
        refine hcontrol offset (.pointer hptr' ?_)
        rw [htarget]
        exact hon
    rw [if_neg hptr, if_neg hptr]
    by_cases hlen : byteAt right i < 64
    · rw [if_pos hlen, if_pos hlen]
      split_ifs
      · rfl
      · refine ih _ _ (fun offset hon ↦ ?_) ?_
        · refine hcontrol offset (.label (by omega) (by omega) ?_)
          rw [hbyte]
          exact hon
        · have hlabel : (labelAt left i).map toLower = (labelAt right i).map toLower := by
            simp only [labelAt, hbyte, List.map_take, List.map_drop, hlower]
          simp only [List.map_append, hdest, hlabel]
    · rw [if_neg hlen, if_neg hlen]

theorem map_toLower_stripDot (text : List UInt8) :
    (stripDot text).map toLower = stripDot (text.map toLower) := by
  unfold stripDot
  have hlast : (text.map toLower).getLast? = some 46 ↔ text.getLast? = some 46 := by
    rw [List.getLast?_map]
    cases text.getLast? with
    | none => simp
    | some byte =>
      have hdot : toLower byte = 46 ↔ byte = 46 := toLower_eq_iff (by decide)
      simp [hdot]
  by_cases hdot : text.getLast? = some 46
  · rw [if_pos hdot, if_pos (hlast.mpr hdot), List.map_dropLast]
  · rw [if_neg hdot, if_neg (mt hlast.mp hdot)]

theorem strnlwr_eq_map {text : List UInt8} {maxlen : ℕ} (h : text.length ≤ maxlen + 1) :
    strnlwr text maxlen = text.map toLower := by
  rw [strnlwr, List.take_of_length_le h, List.drop_of_length_le h, List.append_nil]

theorem length_stripDot_le (text : List UInt8) : (stripDot text).length ≤ text.length := by
  unfold stripDot
  split_ifs
  · rw [List.length_dropLast]
    exact Nat.sub_le _ _
  · exact le_rfl

theorem parsedName_congr {dest dest' : List UInt8} (hdest : dest.map toLower = dest'.map toLower)
    (hlength : dest.length < rrNamesize) (stack : List UInt8) :
    strnlwr (stripDot (cstr (if dest = [] then stack else dest.dropLast))) rrNamesize =
      strnlwr (stripDot (cstr (if dest' = [] then stack else dest'.dropLast))) rrNamesize := by
  have hempty : dest = [] ↔ dest' = [] := by
    rw [← List.map_eq_nil_iff (f := toLower), hdest, List.map_eq_nil_iff]
  by_cases hnil : dest = []
  · rw [if_pos hnil, if_pos (hempty.mp hnil)]
  · rw [if_neg hnil, if_neg (mt hempty.mpr hnil)]
    have hshort : ∀ text : List UInt8, text.length < rrNamesize →
        strnlwr (stripDot (cstr text.dropLast)) rrNamesize =
          stripDot (cstr (text.map toLower).dropLast) := by
      intro text htext
      have hstrip := length_stripDot_le (cstr text.dropLast)
      have hcstr := length_cstr_le text.dropLast
      rw [List.length_dropLast] at hcstr
      rw [strnlwr_eq_map (by omega), map_toLower_stripDot, map_toLower_cstr, List.map_dropLast]
    have hlength' : dest.length = dest'.length := by simpa using congrArg List.length hdest
    rw [hshort dest hlength, hshort dest' (by omega), hdest]

theorem parseQuery_congr (h : CaseVariant left right) (order : ByteOrder)
    (stack : List UInt8) : parseQuery order stack left = parseQuery order stack right := by
  have hlength : left.length = right.length := by simpa using congrArg List.length h.lower
  have hcount : shortAt left 4 = shortAt right 4 :=
    shortAt_congr (h.header 4 (by decide)) (h.header 5 (by decide))
  have hflags : shortAt left 2 = shortAt right 2 :=
    shortAt_congr (h.header 2 (by decide)) (h.header 3 (by decide))
  have hname : loweredName (getObjname left packetDatabegin rrNamesize) =
      loweredName (getObjname right packetDatabegin rrNamesize) := by
    unfold getObjname
    rw [hlength]
    split_ifs
    · rfl
    · exact getObjnameLoop_congr h.lower _ _ _ h.control rfl
  unfold parseQuery
  rw [hcount]
  split_ifs with hzero
  · rfl
  · cases hleft : getObjname left packetDatabegin rrNamesize with
    | none =>
      cases hright : getObjname right packetDatabegin rrNamesize with
      | none => rfl
      | some result => simp [hleft, hright, loweredName] at hname
    | some result =>
      cases hright : getObjname right packetDatabegin rrNamesize with
      | none => simp [hleft, hright, loweredName] at hname
      | some result' =>
        obtain ⟨dest, last⟩ := result
        obtain ⟨dest', last'⟩ := result'
        obtain ⟨hdest, rfl⟩ : dest.map toLower = dest'.map toLower ∧ last = last' := by
          simpa [hleft, hright, loweredName] using hname
        obtain ⟨labels, hnameAt, -, hshort⟩ := getObjname_spec (by decide) hleft
        have hsame := h.question labels last hnameAt
        have htype : shortAt left last = shortAt right last :=
          shortAt_congr (hsame last le_rfl (by omega)) (hsame (last + 1) (by omega) (by omega))
        have hcls : shortAt left (last + 2) = shortAt right (last + 2) :=
          shortAt_congr (hsame (last + 2) (by omega) (by omega))
            (hsame (last + 3) (by omega) (by omega))
        have hempty : dest = [] ↔ dest' = [] := by
          rw [← List.map_eq_nil_iff (f := toLower), hdest, List.map_eq_nil_iff]
        simp only [parsedName_congr hdest hshort stack]
        simp only [hlength, hflags, htype, hcls, hempty]

/-! ### Decisions -/

/-- Two messages differ at most where two requests do. -/
def DifferWithin (left right first second : Packet) : Prop :=
  first.length = second.length ∧
    ∀ offset : ℕ, left[offset]? = right[offset]? → first[offset]? = second[offset]?

/-- The same answer to two requests: the same packet, or the two requests sent back, in which
nothing differs but what differs in the requests. -/
def SameAnswer (left right first second : Packet) : Prop :=
  first = second ∨ DifferWithin left right first second

/-- The same decision on two requests: the same return value, with the same domain and current
server if they are forwarded and the same answer if they are answered. -/
def SameDecision (left right : Packet) (first second : Handled) : Prop :=
  match first.decision, second.decision with
  | .bogus, .bogus => True
  | .answer, .answer => SameAnswer left right first.msg second.msg
  | .forward d, .forward d' => d = d' ∧
      (first.doms.getD d default).current = (second.doms.getD d' default).current
  | _, _ => False

/-- The part of the buffer that `search_subdomnode` is given, after the lookup in the cache. -/
def searchedName (cfg : Config) (env : Env) (s : State) (request : Packet) : List UInt8 :=
  (cacheLookup cfg s.doms env.cacheStack (request ++ env.tail) request.length env.now
    s.cache).buffer.drop packetDatabegin

/-- The domain that `search_subdomnode` finds for a request. -/
def foundDomain (cfg : Config) (env : Env) (s : State) (request : Packet) : ℕ :=
  searchSubdomnode s.doms (searchedName cfg env s request) request.length

def answeredLocally (cfg : Config) (env : Env) (s : State) (request : Packet) : Bool :=
  (masterLookup cfg s.db env.masterStack request).isSome ∨
    0 < (cacheLookup cfg s.doms env.cacheStack (request ++ env.tail) request.length env.now
      s.cache).len

/-- A domain has a server to send to. -/
def hasServer (cfg : Config) (now : ℕ) (doms : List DomNode) (d : ℕ) : Bool :=
  noSrvlist (doms.getD d default).srvlist = false ∧
    ((doms.modify d (chooseServer cfg now)).getD d default).current ≠ none

namespace DifferWithin

variable {left right first second : Packet}

theorem append (hlength : left.length = right.length) (tail : List UInt8) :
    DifferWithin left right (left ++ tail) (right ++ tail) := by
  refine ⟨by simp [hlength], fun offset h ↦ ?_⟩
  rw [List.getElem?_append, List.getElem?_append, hlength, h]

theorem take (h : DifferWithin left right first second) (count : ℕ) :
    DifferWithin left right (first.take count) (second.take count) := by
  refine ⟨by simp [h.1], fun offset hsame ↦ ?_⟩
  rw [List.getElem?_take, List.getElem?_take, h.2 offset hsame]

theorem overlay (h : DifferWithin left right first second) (start : ℕ) (bytes : List UInt8) :
    DifferWithin left right (overlay first start bytes) (overlay second start bytes) := by
  obtain ⟨hlength, hsame⟩ := h
  refine ⟨by simp [Dnrd.overlay, hlength], fun offset h ↦ ?_⟩
  have hpoint := hsame offset h
  simp only [Dnrd.overlay, List.getElem?_append, List.getElem?_take, List.getElem?_drop,
    List.length_append, List.length_take, hlength, hpoint]
  by_cases hfront : offset < min start second.length + bytes.length
  · simp only [if_pos hfront]
  · rw [if_neg hfront, if_neg hfront]
    rcases le_or_gt start second.length with hstart | hstart
    · have hoffset : start + bytes.length + (offset - (min start second.length + bytes.length)) =
          offset := by omega
      rw [hoffset, hpoint]
    · rw [List.getElem?_eq_none (by omega), List.getElem?_eq_none (by omega)]

end DifferWithin

theorem sameDecision_srvfail {left right first second : Packet}
    (h : DifferWithin left right first second) (htwo : left[2]? = right[2]?)
    (doms doms' : List DomNode) (cache cache' : Cache) :
    SameDecision left right (srvfailAnswer first doms cache)
      (srvfailAnswer second doms' cache') := by
  have hbyte : first.getD 2 0 = second.getD 2 0 := by
    simp only [List.getD_eq_getElem?_getD, h.2 2 htwo]
  unfold srvfailAnswer setSrvfail
  rw [h.1, hbyte]
  by_cases hshort : second.length < 4
  · simp [hshort, SameDecision]
  · simp only [if_neg hshort]
    exact Or.inr (h.overlay 2 _)

variable {first second : Packet}

/-- The bytes of an answer that is copied over a request depend only on the first two bytes of the
request. -/
theorem take_overlay_congr (hlength : first.length = second.length)
    (hid : first.take 2 = second.take 2) {bytes : List UInt8} {count : ℕ}
    (hcount : count ≤ 2 + bytes.length) :
    (overlay first 2 bytes).take count = (overlay second 2 bytes).take count := by
  unfold overlay
  rw [hid]
  rcases le_or_gt 2 second.length with hlong | hshort
  · have hfront : count ≤ (second.take 2 ++ bytes).length := by
      rw [List.length_append, List.length_take]
      omega
    rw [List.take_append_of_le_length hfront, List.take_append_of_le_length hfront]
  · rw [List.drop_of_length_le (by omega), List.drop_of_length_le (by omega)]

theorem map_toLower_overlay (h : first.map toLower = second.map toLower)
    (start : ℕ) (bytes : List UInt8) :
    (overlay first start bytes).map toLower = (overlay second start bytes).map toLower := by
  simp only [overlay, List.map_append, List.map_take, List.map_drop, h]

theorem strnlen_drop_congr (h : first.map toLower = second.map toLower)
    (start maxlen : ℕ) :
    strnlen (first.drop start) maxlen = strnlen (second.drop start) maxlen := by
  have hcstr : (cstr ((first.drop start).take maxlen)).map toLower =
      (cstr ((second.drop start).take maxlen)).map toLower := by
    simp only [map_toLower_cstr, List.map_take, List.map_drop, h]
  simpa [strnlen] using congrArg List.length hcstr

theorem take_two_congr (h : CaseVariant left right) (tail : List UInt8) :
    (left ++ tail).take 2 = (right ++ tail).take 2 := by
  have hlength : left.length = right.length := by simpa using congrArg List.length h.lower
  refine List.ext_getElem? fun offset ↦ ?_
  rw [List.getElem?_take, List.getElem?_take]
  split_ifs with hoffset
  · exact (DifferWithin.append hlength tail).2 offset
      (h.header offset (hoffset.trans (by decide)))
  · rfl

/-- The lookup in the cache for two requests that differ in letter case. -/
theorem cacheLookup_congr (h : CaseVariant left right) (cfg : Config)
    (doms : List DomNode) (stack tail : List UInt8) (now : ℕ) (cache : Cache) :
    (cacheLookup cfg doms stack (left ++ tail) left.length now cache).len =
      (cacheLookup cfg doms stack (right ++ tail) right.length now cache).len ∧
    (cacheLookup cfg doms stack (left ++ tail) left.length now cache).cache =
      (cacheLookup cfg doms stack (right ++ tail) right.length now cache).cache ∧
    DifferWithin left right (cacheLookup cfg doms stack (left ++ tail) left.length now cache).buffer
      (cacheLookup cfg doms stack (right ++ tail) right.length now cache).buffer ∧
    (cacheLookup cfg doms stack (left ++ tail) left.length now cache).buffer.map toLower =
      (cacheLookup cfg doms stack (right ++ tail) right.length now cache).buffer.map toLower ∧
    (cacheLookup cfg doms stack (left ++ tail) left.length now cache).buffer.take
        (cacheLookup cfg doms stack (left ++ tail) left.length now cache).len =
      (cacheLookup cfg doms stack (right ++ tail) right.length now cache).buffer.take
        (cacheLookup cfg doms stack (right ++ tail) right.length now cache).len := by
  have hlower : (left ++ tail).map toLower = (right ++ tail).map toLower := by
    rw [List.map_append, List.map_append, h.lower]
  have hlength : left.length = right.length := by simpa using congrArg List.length h.lower
  have hdiffer := DifferWithin.append hlength tail
  have hid := take_two_congr h tail
  unfold cacheLookup
  rw [List.take_left, List.take_left, parseQuery_congr h]
  by_cases honoff : cfg.cacheOnoff = false
  · simp [honoff, hdiffer, hlower]
  rw [if_neg honoff, if_neg honoff]
  cases parseQuery cfg.order stack right with
  | none => exact ⟨rfl, rfl, hdiffer, hlower, rfl⟩
  | some query =>
    simp only
    split_ifs with hskip
    · exact ⟨rfl, rfl, hdiffer, hlower, rfl⟩
    · cases searchCx query now cache.entries with
      | none => exact ⟨rfl, rfl, hdiffer, hlower, rfl⟩
      | some hit =>
        refine ⟨rfl, rfl, hdiffer.overlay 2 _, map_toLower_overlay hlower 2 _, ?_⟩
        refine take_overlay_congr hdiffer.1 hid ?_
        show (if cfg.ignoreInactiveCacheHits ∧ (srvAt doms hit.1.server).inactive ≠ 0 then 0
          else hit.1.p.packet.length) ≤ _
        split_ifs
        · exact Nat.zero_le _
        · rw [List.length_drop]
          omega

variable {doms : List DomNode}

/-- A request that finds a domain with a server is forwarded to it. -/
theorem routeQuery_forward {cfg : Config} {now : ℕ} {buffer : List UInt8} {len : ℕ}
    {cache : Cache}
    (h : hasServer cfg now doms (searchSubdomnode doms (buffer.drop packetDatabegin) len) = true) :
    routeQuery cfg now buffer len doms cache =
      ⟨.forward (searchSubdomnode doms (buffer.drop packetDatabegin) len), buffer.take len,
        doms.modify (searchSubdomnode doms (buffer.drop packetDatabegin) len)
        (chooseServer cfg now), cache⟩ := by
  obtain ⟨hlist, hcurrent⟩ := of_decide_eq_true h
  obtain ⟨c, hc⟩ := Option.ne_none_iff_exists'.mp hcurrent
  unfold routeQuery
  simp only [hlist, Bool.false_eq_true, if_false, hc]

theorem routeQuery_srvfail {cfg : Config} {now : ℕ} {buffer : List UInt8} {len : ℕ}
    (cache : Cache)
    (h : hasServer cfg now doms (searchSubdomnode doms (buffer.drop packetDatabegin) len) = false) :
    ∃ doms', routeQuery cfg now buffer len doms cache =
      srvfailAnswer (buffer.take len) doms' cache := by
  have hnone := of_decide_eq_false h
  unfold routeQuery
  simp only
  split_ifs with hlist
  · exact ⟨doms, rfl⟩
  · split
    · exact ⟨_, rfl⟩
    · rename_i c hc
      have hcurrent := Option.ne_none_iff_exists'.mpr ⟨c, hc⟩
      exact absurd ⟨(Bool.not_eq_true _).mp hlist, hcurrent⟩ hnone

theorem not_sameDecision_srvfail {left right msg : Packet} {cache : Cache}
    {handled : Handled} {d : ℕ} (h : handled.decision = .forward d) :
    ¬ SameDecision left right handled (srvfailAnswer msg doms cache) ∧
      ¬ SameDecision left right (srvfailAnswer msg doms cache) handled := by
  have hother := srvfailAnswer_decision msg doms cache
  unfold SameDecision
  rw [h]
  cases hcase : (srvfailAnswer msg doms cache).decision with
  | bogus => simp
  | answer => simp
  | forward d' => exact absurd hcase (hother d')

/-- The decisions behind the lookups, on two buffers that differ where the requests do. -/
theorem routeQuery_sameDecision_iff {first second : List UInt8}
    (hdiffer : DifferWithin left right first second) (htwo : left[2]? = right[2]?) (cfg : Config)
    (now len : ℕ) (doms : List DomNode) (cache : Cache) :
    SameDecision left right (routeQuery cfg now first len doms cache)
        (routeQuery cfg now second len doms cache) ↔
      searchSubdomnode doms (first.drop packetDatabegin) len =
        searchSubdomnode doms (second.drop packetDatabegin) len ∨
      hasServer cfg now doms (searchSubdomnode doms (first.drop packetDatabegin) len) = false ∧
        hasServer cfg now doms (searchSubdomnode doms (second.drop packetDatabegin) len) =
        false := by
  cases hfirst : hasServer cfg now doms (searchSubdomnode doms (first.drop packetDatabegin) len)
    with
  | true =>
    cases hsecond : hasServer cfg now doms
      (searchSubdomnode doms (second.drop packetDatabegin) len) with
    | true =>
      rw [routeQuery_forward hfirst, routeQuery_forward hsecond]
      constructor
      · exact fun hsame ↦ Or.inl hsame.1
      · rintro (heq | ⟨hno, -⟩)
        · rw [heq]
          exact ⟨rfl, rfl⟩
        · exact absurd hno (by simp)
    | false =>
      obtain ⟨doms', hroute⟩ := routeQuery_srvfail cache hsecond
      rw [routeQuery_forward hfirst, hroute]
      refine iff_of_false (not_sameDecision_srvfail rfl).1 ?_
      rintro (heq | ⟨hno, -⟩)
      · rw [heq, hsecond] at hfirst
        simp at hfirst
      · simp at hno
  | false =>
    obtain ⟨doms', hroute⟩ := routeQuery_srvfail cache hfirst
    cases hsecond : hasServer cfg now doms
      (searchSubdomnode doms (second.drop packetDatabegin) len) with
    | true =>
      rw [routeQuery_forward hsecond, hroute]
      refine iff_of_false (not_sameDecision_srvfail rfl).2 ?_
      rintro (heq | ⟨-, hno⟩)
      · rw [heq, hsecond] at hfirst
        simp at hfirst
      · simp at hno
    | false =>
      obtain ⟨doms'', hroute'⟩ := routeQuery_srvfail cache hsecond
      rw [hroute, hroute']
      exact iff_of_true (sameDecision_srvfail (hdiffer.take len) htwo _ _ _ _) (Or.inr ⟨rfl, rfl⟩)

/-- `handle_query` makes the same decision on two requests that differ only in the letter case of
the question name exactly when the master or the cache answers, or the same configured domains are
the longest ends of the two names as their bytes are, or neither of the domains found has a server.
-/
theorem handleQuery_sameDecision_iff {left right : Packet} (h : CaseVariant left right)
    (cfg : Config) (env : Env) (s : State) :
    SameDecision left right (handleQuery cfg env s (left ++ env.tail) left.length)
        (handleQuery cfg env s (right ++ env.tail) right.length) ↔
      answeredLocally cfg env s left = true ∨
      (∀ d ∈ s.doms.tail, IsLongestDomain s.doms (searchedName cfg env s left) left.length d ↔
        IsLongestDomain s.doms (searchedName cfg env s right) right.length d) ∨
      hasServer cfg env.now s.doms (foundDomain cfg env s left) = false ∧
        hasServer cfg env.now s.doms (foundDomain cfg env s right) = false := by
  have hlength : left.length = right.length := by simpa using congrArg List.length h.lower
  have hdiffer := DifferWithin.append hlength env.tail
  obtain ⟨hlen, hcache, hbuffer, hcase, htake⟩ :=
    cacheLookup_congr h cfg s.doms env.cacheStack env.tail env.now s.cache
  have hmaster : masterLookup cfg s.db env.masterStack left =
      masterLookup cfg s.db env.masterStack right := masterLookup_congr (parseQuery_congr h _ _)
  have hid : (left ++ env.tail).take 2 = (right ++ env.tail).take 2 :=
    take_two_congr h env.tail
  unfold handleQuery answeredLocally foundDomain searchedName
  rw [List.take_left, List.take_left, ← hmaster]
  -- The two requests have the same length, which every later step uses under one name.
  obtain ⟨size, hleft, hright⟩ : ∃ size, left.length = size ∧ right.length = size :=
    ⟨right.length, hlength, rfl⟩
  rw [hleft, hright] at hlen hcache hbuffer hcase htake
  rw [hleft, hright]
  cases hanswer : masterLookup cfg s.db env.masterStack left with
  | some packet =>
    refine iff_of_true (Or.inl ?_) (Or.inl (by simp))
    refine take_overlay_congr hdiffer.1 hid ?_
    rw [List.length_drop]
    omega
  | none =>
    simp only [Option.isSome_none, Bool.false_eq_true, false_or]
    rw [← hlen, ← hcache]
    by_cases hhit : 0 < (cacheLookup cfg s.doms env.cacheStack (left ++ env.tail) size env.now
      s.cache).len
    · rw [if_pos hhit, if_pos hhit]
      refine iff_of_true (Or.inl ?_) (Or.inl (by simpa using hhit))
      rw [htake, hlen]
    · rw [if_neg hhit, if_neg hhit]
      have hroute := routeQuery_sameDecision_iff hbuffer (h.header 2 (by decide)) cfg env.now
        size s.doms (cacheLookup cfg s.doms env.cacheStack (left ++ env.tail) size
          env.now s.cache).cache
      rw [hroute, searchSubdomnode_eq_iff (strnlen_drop_congr hcase packetDatabegin size)]
      simp only [hhit, decide_false, Bool.false_eq_true, false_or]

/-! ### Requests for one-letter names -/

theorem onName_requestFor {first second letter : UInt8} {offset : ℕ}
    (h : OnName (requestFor first second letter) packetDatabegin offset) :
    offset = 12 ∨ offset = 14 := by
  cases h with
  | here => exact Or.inl rfl
  | label _ _ hrest =>
    have hrest : OnName (requestFor first second letter) 14 offset := hrest
    cases hrest with
    | here => exact Or.inr rfl
    | label hpos => exact absurd hpos (by simp [byteAt, requestFor])
    | pointer hptr => exact absurd hptr (by simp [byteAt, requestFor])
  | pointer hptr => exact absurd hptr (by simp [byteAt, requestFor, packetDatabegin])

theorem nameAt_requestFor (first second letter : UInt8) :
    NameAt (requestFor first second letter) packetDatabegin [[letter]] 15 := by
  refine .label (by simp [byteAt, requestFor, packetDatabegin])
    (by simp [byteAt, requestFor, packetDatabegin]) ?_ (.root ?_ ?_) <;>
  simp [byteAt, requestFor, packetDatabegin]

theorem caseVariant_requestFor (first second : UInt8) {letter letter' : UInt8}
    (h : toLower letter = toLower letter') :
    CaseVariant (requestFor first second letter) (requestFor first second letter') := by
  have hsame : ∀ offset : ℕ, offset ≠ 13 →
      (requestFor first second letter)[offset]? = (requestFor first second letter')[offset]? := by
    intro offset hne
    have hset : ∀ letter : UInt8, requestFor first second letter =
        (requestFor first second 0).set 13 letter := fun _ ↦ rfl
    rw [hset letter, hset letter', List.getElem?_set_ne (Ne.symm hne),
      List.getElem?_set_ne (Ne.symm hne)]
  constructor
  · simp [requestFor, h]
  · intro offset hdiffer
    obtain rfl : offset = 13 := by
      by_contra hne
      exact hdiffer (hsame offset hne)
    exact ⟨12, .here 12, by simp [byteAt, requestFor], by omega, by simp [byteAt, requestFor]⟩
  · exact fun offset hoffset ↦ hsame offset (by unfold packetDatabegin at hoffset; omega)
  · intro offset hon
    rcases onName_requestFor hon with rfl | rfl
    · exact ⟨rfl, fun hptr ↦ absurd hptr (by simp [byteAt, requestFor])⟩
    · exact ⟨rfl, fun hptr ↦ absurd hptr (by simp [byteAt, requestFor])⟩
  · intro labels last hname offset hlow hhigh
    obtain ⟨-, rfl⟩ := hname.unique (nameAt_requestFor first second letter)
    exact hsame offset (by omega)

/-- A relay at startup with a default domain and the domain `b`. -/
def domainB : State :=
  startup [configuredDomain none false [11], configuredDomain (some [1, 98]) false [12]] []

/-- The domain `b` is no end of the name `a` in either case, and both requests go to the default
domain. -/
theorem handleQuery_sameDecision_iff_default :
    SameDecision (requestFor 0 7 97) (requestFor 0 7 65)
      (handleQuery defaultConfig (zeroedEnv 100 40000 1 []) domainB
        (requestFor 0 7 97 ++ (zeroedEnv 100 40000 1 []).tail) (requestFor 0 7 97).length)
      (handleQuery defaultConfig (zeroedEnv 100 40000 1 []) domainB
        (requestFor 0 7 65 ++ (zeroedEnv 100 40000 1 []).tail) (requestFor 0 7 65).length) := by
  have hsame : ∀ d ∈ domainB.doms.tail,
      IsLongestDomain domainB.doms (searchedName defaultConfig (zeroedEnv 100 40000 1 []) domainB
        (requestFor 0 7 97)) (requestFor 0 7 97).length d ↔
      IsLongestDomain domainB.doms (searchedName defaultConfig (zeroedEnv 100 40000 1 []) domainB
        (requestFor 0 7 65)) (requestFor 0 7 65).length d := by decide
  have hvariant : CaseVariant (requestFor 0 7 97) (requestFor 0 7 65) :=
    caseVariant_requestFor 0 7 (by decide)
  have hiff :=
    handleQuery_sameDecision_iff hvariant defaultConfig (zeroedEnv 100 40000 1 []) domainB
  exact hiff.mpr (Or.inr (Or.inl hsame))

/-- The request for `b` goes to the servers of the domain `b`, the request for `B` to those of the
default domain. -/
theorem capital_letters_change_domain :
    ConfiguredAs (configuredDomain (some [1, 98]) false [12]) [98] ∧
      CaseVariant (requestFor 0 7 98) (requestFor 0 7 66) ∧
      ¬ SameDecision (requestFor 0 7 98) (requestFor 0 7 66)
        (handleQuery defaultConfig (zeroedEnv 100 40000 1 []) domainB (requestFor 0 7 98) 19)
        (handleQuery defaultConfig (zeroedEnv 100 40000 1 []) domainB (requestFor 0 7 66) 19) := by
  refine ⟨⟨by decide, [1, 98], by decide, by decide⟩, caseVariant_requestFor 0 7 (by decide), ?_⟩
  have hlower : (handleQuery defaultConfig (zeroedEnv 100 40000 1 []) domainB (requestFor 0 7 98)
      19).decision = .forward 1 := by decide
  have hcapital : (handleQuery defaultConfig (zeroedEnv 100 40000 1 []) domainB (requestFor 0 7 66)
      19).decision = .forward 0 := by decide
  unfold SameDecision
  rw [hlower, hcapital]
  exact fun hsame ↦ absurd hsame.1 (by decide)

end CrossBreeder.Dnrd
