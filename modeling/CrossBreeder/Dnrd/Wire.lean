import CrossBreeder.Foundation.ByteOrder
import CrossBreeder.Foundation.CString

/-!
# DNS packets as dnrd reads them

`dns.c` and `check.c`. A packet is the list of bytes received. `getObjname` decodes a name to the
dotted text of its labels, `parseQuery` reads the question of a packet, and `checkQuery` and
`checkReply` are the sanity checks made before a packet is used.

`NameAt` and `HasQuestion` say what a packet means, independently of the decoder: the labels of the
name at an offset, with compression pointers followed, and the position behind the name; and the
labels, type and class of the question.
-/

namespace CrossBreeder.Dnrd

open Foundation

/-- The bytes of a datagram. -/
abbrev Packet := List UInt8

def byteAt (msg : Packet) (offset : ℕ) : ℕ := (msg.getD offset 0).toNat

/-- The sixteen-bit number in network order at an offset: `ntohs` of the short stored there. -/
def shortAt (msg : Packet) (offset : ℕ) : ℕ := byteAt msg offset * 256 + byteAt msg (offset + 1)

def udpMaxsize : ℕ := 512

/-- `PACKET_DATABEGIN`: the offset of the question section. -/
def packetDatabegin : ℕ := 12

/-- `RR_NAMESIZE`: the size of a name buffer. -/
def rrNamesize : ℕ := 256

def dnsClassInet : ℕ := 1

def getQr (flags : ℕ) : ℕ := (flags &&& 0x8000) >>> 15

/-- `GET_OPCODE`, with the mask of the source. -/
def getOpcode (flags : ℕ) : ℕ := (flags &&& 0xe800) >>> 11

/-- `tolerant_mode`: the value every other character of `valid_char` is initialised to. -/
def tolerantMode : Bool := true

/-- The table `valid_char` as `init_dns` fills it. -/
def validChar (char : UInt8) : Bool :=
  if (48 ≤ char ∧ char ≤ 57) ∨ (65 ≤ char ∧ char ≤ 90) ∨ (97 ≤ char ∧ char ≤ 122) ∨ char = 45 then
    true
  else tolerantMode

theorem validChar_eq_true (char : UInt8) : validChar char = true := by
  unfold validChar tolerantMode
  split_ifs <;> rfl

/-! ### Decoding names -/

def pointerTarget (msg : Packet) (offset : ℕ) : ℕ :=
  (byteAt msg offset - 192) * 256 + byteAt msg (offset + 1)

def labelAt (msg : Packet) (offset : ℕ) : List UInt8 :=
  (msg.drop (offset + 1)).take (byteAt msg offset)

/-- The position kept for the caller: that behind the first pointer, or the given one while
`compressed` is zero because no pointer was met. -/
def behindName (compressed next : ℕ) : ℕ := if compressed = 0 then next else compressed

/-- The loop of `get_objname`: read position, bytes written so far, pointers followed, and the
position behind the first pointer, zero while none was met. -/
def getObjnameLoop (msg : Packet) (destsize : ℕ) :
    ℕ → ℕ → List UInt8 → ℕ → ℕ → Option (List UInt8 × ℕ)
  | 0, _, _, _, _ => none
  | fuel + 1, i, dest, depth, compressed =>
    if byteAt msg i = 0 then some (dest, behindName compressed (i + 1))
    else if msg.length ≤ i + 1 then none
    else if 192 ≤ byteAt msg i then
      if msg.length ≤ depth + 1 ∨ udpMaxsize < depth + 1 then none
      else if msg.length ≤ pointerTarget msg i then none
      else getObjnameLoop msg destsize fuel (pointerTarget msg i) dest (depth + 1)
        (behindName compressed (i + 2))
    else if byteAt msg i < 64 then
      if destsize ≤ dest.length + byteAt msg i + 1 ∨ msg.length ≤ i + 1 + byteAt msg i then none
      else if (labelAt msg i).all validChar then
        getObjnameLoop msg destsize fuel (i + 1 + byteAt msg i) (dest ++ labelAt msg i ++ [46])
          depth compressed
      else none
    else none

/-- `get_objname`: the bytes written, each label followed by a dot, and the position behind the
name. A label takes two bytes of the buffer and at most `UDP_MAXSIZE` pointers are followed, which
bounds the iterations. -/
def getObjname (msg : Packet) (index destsize : ℕ) : Option (List UInt8 × ℕ) :=
  if index < packetDatabegin ∨ msg.length ≤ index then none
  else getObjnameLoop msg destsize (destsize + udpMaxsize + 2) index [] 0 0

def strnlwr (text : List UInt8) (maxlen : ℕ) : List UInt8 :=
  (text.take (maxlen + 1)).map toLower ++ text.drop (maxlen + 1)

/-- The fields of `rr_t` that a question fills. -/
structure Rr where
  flags : ℕ
  name : List UInt8
  type : ℕ
  cls : ℕ
  deriving DecidableEq, Repr

/-- The flags of a record after a zero was written to their second byte. -/
def clobberFlags (order : ByteOrder) (flags : ℕ) : ℕ :=
  (order.load (order.store (UInt16.ofNat flags)).1 0).toNat

def stripDot (text : List UInt8) : List UInt8 :=
  if text.getLast? = some 46 then text.dropLast else text

/-- `parse_query`: the question of a packet, `none` where the source returns an error. -/
def parseQuery (order : ByteOrder) (stack : List UInt8) (msg : Packet) : Option Rr :=
  if shortAt msg 4 = 0 then none
  else match getObjname msg packetDatabegin rrNamesize with
    | none => none
    | some (dest, i) =>
      if msg.length < i + 4 then none
      else some
        { flags := if dest = [] then clobberFlags order (shortAt msg 2) else shortAt msg 2
          name := strnlwr (stripDot (cstr (if dest = [] then stack else dest.dropLast))) rrNamesize
          type := shortAt msg i
          cls := shortAt msg (i + 2) }

/-! ### Sanity checks -/

def checkQuery (msg : Packet) : ℤ :=
  if msg.length < 12 then -1
  else if udpMaxsize < msg.length then -1
  else if shortAt msg 2 &&& 0x0040 ≠ 0 then -1
  else if shortAt msg 2 &&& 0x8000 ≠ 0 then -1
  else 0

/-- `check_reply`, with the length that `reply_recv` returned. -/
def checkReply (msg : Packet) (len : ℕ) : ℤ :=
  if len < 12 then -1
  else if shortAt msg 2 &&& 0x0040 ≠ 0 then -1
  else if shortAt msg 2 &&& 0x8000 = 0 then -1
  else 0

/-! ### What a name on the wire means -/

/-- The name at an offset of a packet: its labels, with compression pointers followed, and the
position behind it. -/
inductive NameAt (msg : Packet) : ℕ → List (List UInt8) → ℕ → Prop
  | root {offset : ℕ} (hbound : offset < msg.length) (hzero : byteAt msg offset = 0) :
      NameAt msg offset [] (offset + 1)
  | label {offset : ℕ} {labels : List (List UInt8)} {last : ℕ} (hpos : 0 < byteAt msg offset)
      (hlen : byteAt msg offset < 64) (hbound : offset + 1 + byteAt msg offset < msg.length)
      (hrest : NameAt msg (offset + 1 + byteAt msg offset) labels last) :
      NameAt msg offset (labelAt msg offset :: labels) last
  | pointer {offset : ℕ} {labels : List (List UInt8)} {last : ℕ} (hptr : 192 ≤ byteAt msg offset)
      (hbound : offset + 1 < msg.length) (hrest :
        NameAt msg (pointerTarget msg offset) labels last) :
      NameAt msg offset labels (offset + 2)

/-- The offsets of the length and pointer bytes that decoding the name at `start` visits. -/
inductive OnName (msg : Packet) : ℕ → ℕ → Prop
  | here (start : ℕ) : OnName msg start start
  | label {start offset : ℕ} (hpos : 0 < byteAt msg start) (hlen : byteAt msg start < 64)
      (hrest : OnName msg (start + 1 + byteAt msg start) offset) : OnName msg start offset
  | pointer {start offset : ℕ} (hptr : 192 ≤ byteAt msg start)
      (hrest : OnName msg (pointerTarget msg start) offset) : OnName msg start offset

structure Question where
  labels : List (List UInt8)
  type : ℕ
  cls : ℕ
  deriving DecidableEq, Repr

def HasQuestion (msg : Packet) (question : Question) : Prop :=
  ∃ last, NameAt msg packetDatabegin question.labels last ∧ last + 4 ≤ msg.length ∧
    question.type = shortAt msg last ∧ question.cls = shortAt msg (last + 2)

def Question.Same (left right : Question) : Prop :=
  left.labels.map (List.map toLower) = right.labels.map (List.map toLower) ∧
    left.type = right.type ∧ left.cls = right.cls

/-- The number of bytes that the name at the start of some bytes takes up, up to the root label or
the first compression pointer. -/
def nameSize : ℕ → List UInt8 → Option ℕ
  | 0, _ => none
  | _, [] => none
  | fuel + 1, byte :: rest =>
    if byte = 0 then some 1
    else if 192 ≤ byte.toNat then some 2
    else if 64 ≤ byte.toNat then none
    else (nameSize fuel (rest.drop byte.toNat)).map (· + 1 + byte.toNat)

def questionSection (msg : Packet) : Option (List UInt8) :=
  let body := msg.drop packetDatabegin
  match nameSize body.length body with
  | none => none
  | some size => if size + 4 ≤ body.length then some (body.take (size + 4)) else none

theorem questionSection_congr {left right : Packet}
    (h : left.drop packetDatabegin = right.drop packetDatabegin) :
    questionSection left = questionSection right := by
  unfold questionSection
  rw [h]

def dotted (labels : List (List UInt8)) : List UInt8 := labels.flatMap fun label ↦ label ++ [46]

@[simp] theorem dotted_nil : dotted [] = [] := rfl

@[simp] theorem dotted_cons (label : List UInt8) (labels : List (List UInt8)) :
    dotted (label :: labels) = label ++ 46 :: dotted labels := by
  simp [dotted]

variable {labels : List (List UInt8)}

theorem dotted_eq_intercalate (hlabels : labels ≠ []) :
    dotted labels = [46].intercalate labels ++ [46] := by
  induction labels with
  | nil => exact absurd rfl hlabels
  | cons label labels ih =>
    rcases labels with _ | ⟨other, labels⟩
    · simp
    · rw [dotted_cons, ih (List.cons_ne_nil _ _), List.intercalate_cons_cons]
      simp

variable {msg : Packet}

variable {offset : ℕ}

theorem NameAt.unique {first second : List (List UInt8)}
    {firstLast secondLast : ℕ} (hfirst : NameAt msg offset first firstLast)
    (hsecond : NameAt msg offset second secondLast) : first = second ∧ firstLast = secondLast := by
  induction hfirst generalizing second secondLast with
  | root hbound hzero =>
    cases hsecond with
    | root => exact ⟨rfl, rfl⟩
    | label hpos => omega
    | pointer hptr => omega
  | label hpos hlen hbound hrest ih =>
    cases hsecond with
    | root => omega
    | label _ _ _ hrest' =>
      obtain ⟨rfl, rfl⟩ := ih hrest'
      exact ⟨rfl, rfl⟩
    | pointer => omega
  | pointer hptr hbound hrest ih =>
    cases hsecond with
    | root => omega
    | label => omega
    | pointer _ _ hrest' => exact ⟨(ih hrest').1, rfl⟩

theorem NameAt.label_length {last : ℕ}
    (hname : NameAt msg offset labels last) :
    ∀ label ∈ labels, 0 < label.length ∧ label.length < 64 := by
  induction hname with
  | root => simp
  | @label offset labels last hpos hlen hbound _ ih =>
    intro label hlabel
    rcases List.mem_cons.mp hlabel with rfl | hlabel
    · simp only [labelAt, List.length_take, List.length_drop]
      omega
    · exact ih label hlabel
  | pointer _ _ _ ih => exact ih

theorem NameAt.of_drop_eq {msg other : Packet} {bound : ℕ} (hlength : other.length = msg.length)
    (hdrop : other.drop bound = msg.drop bound) {last : ℕ}
    (hname : NameAt msg offset labels last) (havoid : ∀ visited, OnName msg offset visited →
      bound ≤ visited) : NameAt other offset labels last := by
  have hbyte : ∀ i, bound ≤ i → byteAt other i = byteAt msg i := by
    intro i hi
    have hget := congrArg (fun bytes : List UInt8 ↦ bytes.getD (i - bound) 0) hdrop
    simp only [List.getD_eq_getElem?_getD, List.getElem?_drop, Nat.add_sub_of_le hi] at hget
    simp only [byteAt, List.getD_eq_getElem?_getD, hget]
  have htail : ∀ i, bound ≤ i → other.drop i = msg.drop i := by
    intro i hi
    have h := congrArg (List.drop (i - bound)) hdrop
    rwa [List.drop_drop, List.drop_drop, Nat.add_sub_of_le hi] at h
  induction hname with
  | root hbound hzero =>
    have hoffset := havoid _ (.here _)
    exact .root (by omega) (by rw [hbyte _ hoffset, hzero])
  | @label offset labels last hpos hlen hbound _ ih =>
    have hoffset := havoid _ (.here _)
    have hsame := hbyte offset hoffset
    have hlabel : labelAt other offset = labelAt msg offset := by
      simp only [labelAt, hsame, htail (offset + 1) (by omega)]
    rw [← hlabel]
    refine .label (by omega) (by omega) (by omega) ?_
    rw [hsame]
    exact ih fun visited hvisited ↦ havoid visited (.label hpos hlen hvisited)
  | @pointer offset labels last hptr hbound _ ih =>
    have hoffset := havoid _ (.here _)
    have htarget : pointerTarget other offset = pointerTarget msg offset := by
      simp only [pointerTarget, hbyte offset hoffset, hbyte (offset + 1) (by omega)]
    have hrest := ih fun visited hvisited ↦ havoid visited (.pointer hptr hvisited)
    rw [← htarget] at hrest
    exact .pointer (by rw [hbyte offset hoffset]; exact hptr) (by omega) hrest

theorem NameAt.lt_last {last : ℕ}
    (hname : NameAt msg offset labels last) : offset < last := by
  induction hname with
  | root => omega
  | label _ _ _ _ ih => omega
  | pointer => omega

/-- What the decoding loop returns: the labels from its position on, appended to what was already
written, and the position behind the name, or behind the first pointer met. -/
theorem getObjnameLoop_spec {destsize : ℕ} (fuel : ℕ) :
    ∀ {i : ℕ} {dest : List UInt8} {depth compressed : ℕ} {out : List UInt8} {index : ℕ},
      i < msg.length →
      getObjnameLoop msg destsize fuel i dest depth compressed = some (out, index) →
      ∃ labels last, NameAt msg i labels last ∧ out = dest ++ dotted labels ∧
        (dest.length < destsize → out.length < destsize) ∧
        index = behindName compressed last := by
  induction fuel with
  | zero => simp [getObjnameLoop]
  | succ fuel ih =>
    intro i dest depth compressed out index hi hloop
    simp only [getObjnameLoop] at hloop
    split_ifs at hloop with hzero hnext hptr hdepth htarget hlen hsize hvalid
    · obtain ⟨rfl, rfl⟩ : dest = out ∧ behindName compressed (i + 1) = index := by
        simpa using hloop
      exact ⟨[], i + 1, .root hi hzero, by simp, id, rfl⟩
    · obtain ⟨labels, last, hname, hout, hshort, hindex⟩ := ih (by omega) hloop
      refine ⟨labels, i + 2, .pointer hptr (by omega) hname, hout, hshort, ?_⟩
      rw [hindex]
      by_cases hcompressed : compressed = 0 <;> simp [behindName, hcompressed]
    · have hlabel : (labelAt msg i).length = byteAt msg i := by
        simp only [labelAt, List.length_take, List.length_drop]
        omega
      obtain ⟨labels, last, hname, hout, hshort, hindex⟩ := ih (by omega) hloop
      refine ⟨labelAt msg i :: labels, last, .label (by omega) hlen (by omega) hname, ?_, ?_,
        hindex⟩
      · simp [hout]
      · intro _
        refine hshort ?_
        simp only [List.length_append, hlabel, List.length_singleton]
        omega

/-- A name that `get_objname` accepts is a name of the packet, and the text written is its labels,
each followed by a dot. -/
theorem getObjname_spec {index destsize : ℕ} {dest : List UInt8} {next : ℕ}
    (hdestsize : 0 < destsize) (h : getObjname msg index destsize = some (dest, next)) :
    ∃ labels, NameAt msg index labels next ∧ dest = dotted labels ∧ dest.length < destsize := by
  unfold getObjname at h
  split_ifs at h with hindex
  obtain ⟨labels, last, hname, hdest, hshort, hnext⟩ :=
    getObjnameLoop_spec _ (by omega) h
  obtain rfl : next = last := hnext
  exact ⟨labels, hname, by simpa using hdest, hshort (by simpa using hdestsize)⟩

end CrossBreeder.Dnrd
