import CrossBreeder.Dnsmasq.Tftp
import CrossBreeder.Dnsmasq.TftpNames

/-!
# Errors of the TFTP server

`tftp_err` prints a message with the name of the file into the packet buffer and sends as many bytes
as the whole message has, also if `snprintf` has cut it off after 499 characters. A packet consists
of what the call has written if and only if the message fits (`leakless_iff`). Else the client gets
to see what was in the buffer before, which a request for a long name is enough for
(`not_leakless_longRequest`).
-/

namespace CrossBreeder.Dnsmasq

open Foundation

/-! ### The messages -/

def dnsmasqPacketsz : ℕ := 512 + maxDname + 10

/-- `daemon->packet_buff_sz`. -/
def packetBuffSz (ednsPktsz : ℕ) :
    ℕ := if dnsmasqPacketsz < ednsPktsz then ednsPktsz else dnsmasqPacketsz

/-- The calls of `tftp_err`, with the name and the text of the error of the system. -/
inductive TftpFailure
  | unsupported (addrbuff : List UInt8)
  | notFound (namebuff : List UInt8)
  | forbidden (namebuff errstr : List UInt8)
  | unreadable (filename errstr : List UInt8)
  deriving DecidableEq

namespace TftpFailure

/-- `ERR_ILL`, `ERR_FNF`, `ERR_PERM` and `ERR_NOTDEF`. -/
def err : TftpFailure → UInt16
  | .unsupported _ => 4
  | .notFound _ => 1
  | .forbidden _ _ => 2
  | .unreadable _ _ => 0

/-- What the format makes of the name and the text. -/
def message : TftpFailure → List UInt8
  | .unsupported addrbuff => asciiBytes "unsupported request from " ++ sanitise addrbuff
  | .notFound namebuff => asciiBytes "file " ++ sanitise namebuff ++ asciiBytes " not found"
  | .forbidden namebuff errstr => asciiBytes "cannot access " ++ sanitise namebuff ++
    asciiBytes ": " ++ errstr
  | .unreadable filename errstr => asciiBytes "cannot read " ++ sanitise filename ++
    asciiBytes ": " ++ errstr

/-- The text of the error of the system, where it is used. -/
def errstr : TftpFailure → List UInt8
  | .unsupported _ => []
  | .notFound _ => []
  | .forbidden _ errstr => errstr
  | .unreadable _ errstr => errstr

def packet (failure : TftpFailure) (buffer : List UInt8) :
    List UInt8 := tftpErr buffer failure.err failure.message

/-- The printable characters of the name and the text fit into the message. -/
def Fits : TftpFailure → Prop
  | .unsupported addrbuff => (sanitise addrbuff).length ≤ 474
  | .notFound namebuff => (sanitise namebuff).length ≤ 484
  | .forbidden namebuff errstr => (sanitise namebuff).length + errstr.length ≤ 483
  | .unreadable filename errstr => (sanitise filename).length + errstr.length ≤ 485

end TftpFailure

/-! ### Where errors come from -/

def opRrq : UInt16 := 1

/-- `ENOENT`, `ENOMEM` and `EACCES`. -/
def enoent : ℕ := 2
def enomem : ℕ := 12
def eacces : ℕ := 13

/-- What `fstat` tells about a file. -/
structure FileStat where
  uid : ℕ
  othersMayRead : Bool
  dev : ℕ
  inode : ℕ

/-- What the system answers while a request is handled, and the option for secure mode. -/
structure TftpHost where
  uid : ℕ
  tftpSecure : Bool
  openFile : List UInt8 → Except ℕ Unit
  fstat : Except ℕ FileStat
  malloc : Bool
  read : Except ℕ Unit
  strerror : ℕ → List UInt8

/-- `check_tftp_fileperm`, given whether a transfer has the same file open. -/
def checkTftpFileperm (host : TftpHost) (hasPrefix : Bool) (namebuff : List UInt8)
    (shared : FileStat → Bool) : Except TftpFailure FileStat :=
  let perm := .error (.forbidden namebuff (host.strerror eacces))
  let oops errno := .error (.unreadable namebuff (host.strerror errno))
  if hasPrefix ∧ TftpSite.upward <:+: namebuff then perm
  else
    match host.openFile namebuff with
    | .error errno =>
      if errno = enoent then .error (.notFound namebuff) else if errno = eacces then
        perm else oops errno
    | .ok () =>
      match host.fstat with
      | .error errno => oops errno
      | .ok stat =>
        if host.uid = 0 ∧ stat.othersMayRead = false then perm
        else if host.uid ≠ 0 ∧ host.tftpSecure ∧ host.uid ≠ stat.uid then perm
        else if shared stat = false ∧ host.malloc = false then oops enomem
        else .ok stat

/-- `next`: the string at the front of what is left of a packet, if the packet ends with a zero. -/
def nextString (packet rest : List UInt8) : Option (List UInt8 × List UInt8) :=
  if packet.getLast? ≠ some 0 ∨ rest = [] ∨ cstr rest = [] then none
  else some (cstr rest, rest.drop ((cstr rest).length + 1))

/-- The name and the mode in a request. -/
def requestFields (packet : List UInt8) : Option (List UInt8 × List UInt8) := do
  let (filename, rest) ← nextString packet (packet.drop 2)
  let (mode, _) ← nextString packet rest
  if shortAt packet 0 = opRrq ∧
    (mode.map toLower = asciiBytes "octet" ∨ mode.map toLower = asciiBytes "netascii") then
      some (filename, mode)
  else none

/-- The error that `tftp_request` answers with, unless there is none. -/
def requestFailure (site : TftpSite) (host : TftpHost) (packet : List UInt8)
    (shared : FileStat → Bool) : Option TftpFailure :=
  match requestFields packet with
  | none => some (.unsupported site.addrbuff)
  | some (filename, _) =>
    match checkTftpFileperm host site.requestPrefix.isSome (site.requestName filename) shared with
    | .error failure => some failure
    | .ok _ =>
      match host.read with
      | .error errno => some (.unreadable (site.requestName filename) (host.strerror errno))
      | .ok () => none

/-! ### What errors tell -/

structure Leakless (failure : TftpFailure) (sent : List UInt8) : Prop where
  message : ∃ text, 0 ∉ text ∧ sent = shortBytes opErr ++ shortBytes failure.err ++ text ++ [0]
  written : sent <+: tftpErrWritten failure.err failure.message

theorem TftpFailure.fits_iff (failure : TftpFailure) :
    failure.Fits ↔ failure.message.length ≤ 499 := by
  cases failure with
  | unsupported addrbuff =>
    have hlength : (asciiBytes "unsupported request from ").length = 25 := rfl
    simp only [Fits, message, List.length_append, hlength]
    omega
  | notFound namebuff =>
    have hlength : (asciiBytes "file ").length = 5 ∧ (asciiBytes " not found").length = 10 :=
      ⟨rfl, rfl⟩
    simp only [Fits, message, List.length_append, hlength]
    omega
  | forbidden namebuff errstr =>
    have hlength : (asciiBytes "cannot access ").length = 14 ∧ (asciiBytes ": ").length = 2 :=
      ⟨rfl, rfl⟩
    simp only [Fits, message, List.length_append, hlength]
    omega
  | unreadable filename errstr =>
    have hlength : (asciiBytes "cannot read ").length = 12 ∧ (asciiBytes ": ").length = 2 :=
      ⟨rfl, rfl⟩
    simp only [Fits, message, List.length_append, hlength]
    omega

theorem zero_notMem_sanitise (text : List UInt8) : 0 ∉ sanitise text := by
  intro hzero
  have hprintable := (List.mem_filter.mp hzero).2
  simp at hprintable

theorem TftpFailure.zero_notMem_message {failure : TftpFailure} (herrstr : 0 ∉ failure.errstr) :
    0 ∉ failure.message := by
  cases failure with
  | unsupported addrbuff =>
    have htext : (0 : UInt8) ∉ asciiBytes "unsupported request from " := by decide
    simp [message, htext, zero_notMem_sanitise]
  | notFound namebuff =>
    have htext : (0 : UInt8) ∉ asciiBytes "file " ∧ (0 : UInt8) ∉ asciiBytes " not found" := by
      decide
    simp [message, htext, zero_notMem_sanitise]
  | forbidden namebuff errstr =>
    have htext : (0 : UInt8) ∉ asciiBytes "cannot access " ∧ (0 : UInt8) ∉ asciiBytes ": " := by
      decide
    simpa [message, htext, zero_notMem_sanitise, TftpFailure.errstr] using herrstr
  | unreadable filename errstr =>
    have htext : (0 : UInt8) ∉ asciiBytes "cannot read " ∧ (0 : UInt8) ∉ asciiBytes ": " := by
      decide
    simpa [message, htext, zero_notMem_sanitise, TftpFailure.errstr] using herrstr

theorem length_tftpErrWritten (err : UInt16) (message : List UInt8) :
    (tftpErrWritten err message).length = min 499 message.length + 5 := by
  simp [tftpErrWritten, shortBytes]

theorem tftpErr_of_fits (buffer : List UInt8) (err : UInt16) {message : List UInt8}
    (hfits : message.length ≤ 499) : tftpErr buffer err message = tftpErrWritten err message := by
  have hlength := length_tftpErrWritten err message
  unfold tftpErr
  rw [List.take_append_of_le_length (by omega), List.take_of_length_le (by omega)]

theorem length_tftpErr_of_long {buffer : List UInt8} (err : UInt16) {message : List UInt8}
    (hlong : 499 < message.length) (hroom : dnsmasqPacketsz ≤ buffer.length) :
    (tftpErrWritten err message).length < (tftpErr buffer err message).length := by
  have hlength := length_tftpErrWritten err message
  have hsize : dnsmasqPacketsz = 1547 := rfl
  unfold tftpErr
  rw [List.length_take, List.length_append, List.length_drop]
  omega

theorem dnsmasqPacketsz_le (ednsPktsz : ℕ) : dnsmasqPacketsz ≤ packetBuffSz ednsPktsz := by
  unfold packetBuffSz
  split_ifs with hlarge
  · exact hlarge.le
  · exact le_rfl

theorem Leakless.fits {failure : TftpFailure} {buffer : List UInt8}
    (h : Leakless failure (failure.packet buffer)) (hroom : dnsmasqPacketsz ≤ buffer.length) :
    failure.Fits := by
  rw [failure.fits_iff]
  by_contra hlong
  exact absurd h.written.length_le
    (Nat.not_le.mpr (length_tftpErr_of_long failure.err (Nat.lt_of_not_le hlong) hroom))

/-- An error tells nothing but its message if and only if the message fits. -/
theorem leakless_iff (failure : TftpFailure) (herrstr : 0 ∉ failure.errstr) (ednsPktsz : ℕ)
    {buffer : List UInt8} (hbuffer : buffer.length = packetBuffSz ednsPktsz) :
    Leakless failure (failure.packet buffer) ↔ failure.Fits := by
  constructor
  · exact fun hleakless ↦ hleakless.fits ((dnsmasqPacketsz_le ednsPktsz).trans_eq hbuffer.symm)
  · intro hfits
    rw [failure.fits_iff] at hfits
    have hsent : failure.packet buffer = tftpErrWritten failure.err failure.message :=
      tftpErr_of_fits _ _ hfits
    refine ⟨⟨failure.message, TftpFailure.zero_notMem_message herrstr, ?_⟩, ?_⟩
    · rw [hsent, tftpErrWritten, List.take_of_length_le hfits]
    · rw [hsent]

theorem leakless_iff_notFound :
    Leakless (.notFound [97]) ((TftpFailure.notFound [97]).packet (List.replicate 1547 0)) ↔
    (TftpFailure.notFound [97]).Fits :=
  leakless_iff (.notFound [97]) (by decide) 0 (by rw [List.length_replicate]; rfl)

/-! ### A request for a long name -/

/-- A server without a prefix. -/
def plainSite : TftpSite where
  tftpPrefix := none
  ifPrefix := []
  interface := none
  tftpAPref := false
  tftpLC := false
  tolower := toLower
  addrbuff := asciiBytes "10.0.0.1"
  isDir _ := false

/-- A system without files. -/
def emptyHost : TftpHost where
  uid := 0
  tftpSecure := false
  openFile _ := .error enoent
  fstat := .error enoent
  malloc := true
  read := .ok ()
  strerror _ := asciiBytes "No such file or directory"

def longRequest : List UInt8 := shortBytes opRrq ++ List.replicate 500 97 ++
    [0] ++ asciiBytes "octet" ++ [0]

/-- The client that asks for a name that is too long gets bytes that the call did not write. -/
theorem not_leakless_longRequest :
    ¬ ∀ (site : TftpSite) (host : TftpHost) (packet : List UInt8) (shared : FileStat → Bool)
    (failure : TftpFailure)
      (ednsPktsz : ℕ) (buffer : List UInt8), requestFailure site host packet shared = some failure →
      0 ∉ failure.errstr →
      buffer.length = packetBuffSz ednsPktsz → Leakless failure (failure.packet buffer) := by
  intro hall
  have hfailure : requestFailure plainSite emptyHost longRequest (fun _ ↦ false) =
      some (.notFound (slash :: List.replicate 500 97)) := by decide +kernel
  have hbuffer : (List.replicate 1547 (120 : UInt8)).length = packetBuffSz 0 := by
    rw [List.length_replicate]
    rfl
  have hleakless :=
    hall plainSite emptyHost longRequest (fun _ ↦ false) _ 0 _ hfailure (by decide) hbuffer
  have hfits := hleakless.fits ((dnsmasqPacketsz_le 0).trans_eq hbuffer.symm)
  unfold TftpFailure.Fits at hfits
  exact absurd hfits (by decide +kernel)

end CrossBreeder.Dnsmasq
