import CrossBreeder.Dnrd.Master

/-!
# The files of the local master

`master.c` up to the loaded database: `read_hosts`, `read_configuration`, `read_blacklist` and
`master_init`, with the functions of `lib.c` that cut a line into words. A file system is a function
from names to contents, and `inet_aton` is given. Words are cut at fixed lengths, silently.
-/

namespace CrossBreeder.Dnrd

open Foundation

/-! ### Lines and words -/

/-- The contents of the files that can be opened. -/
abbrev FileSystem := List UInt8 → Option (List UInt8)

/-- The lines that successive calls of `fgets` with a buffer of a given size return, as strings.
Each call takes at least one byte. -/
def fileLines (size : ℕ) : ℕ → List UInt8 → List (List UInt8)
  | 0, _ => []
  | fuel + 1, file =>
    if file = [] then []
    else cstr (fgets (size - 1) file).1 :: fileLines size fuel (fgets (size - 1) file).2

def skipWs (text : List UInt8) : List UInt8 := text.dropWhile fun c ↦ c = 32 ∨ c = 9

/-- `noctrln`: control characters and blanks at the end are removed. -/
def noctrln (text : List UInt8) : List UInt8 := (text.reverse.dropWhile (· ≤ 32)).reverse

/-- `get_word` into a buffer of a given size: the next word, cut to the buffer, and the rest of the
line. -/
def getWord (text : List UInt8) (size : ℕ) : List UInt8 × List UInt8 :=
  let text := text.dropWhile (· ≤ 32)
  ((text.takeWhile (32 < ·)).take (size - 2), text.dropWhile (32 < ·))

/-- `copy_string`, which also cuts the string it copies. -/
def copyString (text : List UInt8) (size : ℕ) : List UInt8 :=
  (noctrln (skipWs text)).take (size - 2)

/-- A word with the domain behind it, as `snprintf` prints them into a buffer of a given size. -/
def qualified (word domain : List UInt8) (size : ℕ) : List UInt8 :=
  (word ++ (if domain = [] then [] else [46]) ++ domain).take (size - 1)

/-- `get_hostname` into a buffer of a given size: the next name and the rest of the line. -/
def getHostname (line domain : List UInt8) (size : ℕ) : List UInt8 × List UInt8 :=
  let size := size - 2
  let (word, rest) := getWord line 100
  let name :=
    if word = [] then []
    else if word.head? = some 43 then copyString word size
    else if word.getLast? = some 43 then qualified word.dropLast domain size
    else if word.getLast? = some 46 then copyString word.dropLast (size - 1)
    else if 46 ∉ word then qualified word domain size
    else copyString word size
  (name, rest)

/-- The names that successive calls of `get_hostname` return up to the first empty one. Each takes
at least one byte of the line. -/
def hostnames (domain : List UInt8) : ℕ → List UInt8 → List (List UInt8)
  | 0, _ => []
  | fuel + 1, line =>
    let (name, rest) := getHostname line domain 100
    if name = [] then [] else name :: hostnames domain fuel rest

/-! ### Records -/

section Files

variable (inetAton : List UInt8 → Option ℕ)

/-- The text of an address with its bytes in reverse order, as `create_nameip` prints it. -/
def arpaText (ipnum : ℕ) : List UInt8 :=
  decimal (UInt8.ofNat ipnum) ++ [46] ++ decimal (UInt8.ofNat (ipnum / 256)) ++ [46] ++
    decimal (UInt8.ofNat (ipnum / 65536)) ++ [46] ++ decimal (UInt8.ofNat (ipnum / 16777216))

/-- `add_nameip`, which adds nothing for an invalid address. -/
def addNameip (db : List DnsRecord) (name : List UInt8) (maxlen : ℕ) (ip : List UInt8) :
    List DnsRecord :=
  match inetAton ip with
  | none => db
  | some ipnum => db ++ [⟨mkstring name maxlen, .nameip (mkstring (arpaText ipnum) maxlen) ipnum⟩]

def addDns (db : List DnsRecord) (domain : List UInt8) (maxdomainlen : ℕ) (dns : List UInt8)
    (maxdnslen : ℕ) : List DnsRecord :=
  db ++ [⟨mkstring domain maxdomainlen, .dns (mkstring dns maxdnslen)⟩]

/-- `add_authority`. -/
def addDomainAuthority (db : List DnsRecord) (domain : List UInt8) (maxlen : ℕ) : List DnsRecord :=
  db ++ [⟨mkstring domain maxlen, .authority⟩]

/-- The loop over the names behind an address. -/
def addHosts (db : List DnsRecord) (names : List (List UInt8)) (ip : List UInt8) : List DnsRecord :=
  names.foldl (fun db name ↦ addNameip inetAton db name 100 ip) db

def startsWithDigit (line : List UInt8) : Bool := line.head?.any fun c ↦ 48 ≤ c ∧ c ≤ 57

/-- A line that is read: not empty and not a comment. -/
def usedLine (line : List UInt8) : Option (List UInt8) :=
  let line := skipWs (noctrln line)
  if line = [] ∨ line.head? = some 35 then none else some line

def readHosts (files : FileSystem) (filename domain : List UInt8) (db : List DnsRecord) :
    List DnsRecord :=
  match files filename with
  | none => db
  | some file =>
    ((fileLines 300 file.length file).filterMap usedLine).foldl
      (fun db line ↦
        if startsWithDigit line then
          let (ipnum, rest) := getWord line 100
          addHosts inetAton db (hostnames domain rest.length rest) ipnum
        else db) db

/-- The database and the current domain of `read_configuration`. -/
structure Reading where
  db : List DnsRecord
  domain : List UInt8

/-- A line of the configuration that starts with an address. Without a name the domain gets the
address. -/
def readAddressLine (reading : Reading) (line : List UInt8) : Reading :=
  let (ipnum, rest) := getWord line 100
  match hostnames reading.domain rest.length rest with
  | [] => { reading with db := addNameip inetAton reading.db reading.domain 256 ipnum }
  | names => { reading with db := addHosts inetAton reading.db names ipnum }

/-- A `domain` directive: authority for `+auth` and a name server for every other word. -/
def readDomainLine (reading : Reading) (rest : List UInt8) : Reading :=
  let (domain, rest) := getWord rest 256
  if domain = [] then { reading with domain := [] }
  else
    { db := (hostnames domain rest.length rest).foldl
        (fun db name ↦
          -- +auth
          if name = [43, 97, 117, 116, 104] then addDomainAuthority db domain 256
          else addDns db domain 256 name 100) reading.db
      domain := domain }

/-- A `hosts` directive. The domain is cut when it is copied. -/
def readHostsLine (files : FileSystem) (reading : Reading) (rest : List UInt8) : Reading :=
  let (filename, rest) := getWord rest 200
  if filename = [] then reading
  else
    -- a single dash stands for /etc/hosts
    let filename := if filename = [45] then [47, 101, 116, 99, 47, 104, 111, 115, 116, 115]
      else filename
    let word := (getWord rest 100).1
    if word = [] then
      let domain := copyString reading.domain 100
      ⟨readHosts inetAton files filename domain reading.db, domain⟩
    else { reading with db := readHosts inetAton files filename word reading.db }

def readLine (files : FileSystem) (reading : Reading) (line : List UInt8) : Reading :=
  if startsWithDigit line then readAddressLine inetAton reading line
  else
    let (word, rest) := getWord line 100
    -- domain, hosts
    if word = [100, 111, 109, 97, 105, 110] then readDomainLine reading rest
    else if word = [104, 111, 115, 116, 115] then readHostsLine inetAton files reading rest
    else reading

/-- `read_configuration`. The variable for the domain is not initialised. -/
def readConfiguration (files : FileSystem) (stack filename : List UInt8) (db : List DnsRecord) :
    List DnsRecord :=
  match files filename with
  | none => db
  | some file =>
    (((fileLines 300 file.length file).filterMap usedLine).foldl (readLine inetAton files)
      ⟨db, stack⟩).db

/-- `read_blacklist`: every line is a name to have authority for. -/
def readBlacklist (files : FileSystem) (filename : List UInt8) (db : List DnsRecord) :
    List DnsRecord :=
  match files filename with
  | none => db
  | some file =>
    (fileLines 256 file.length file).foldl
      (fun db line ↦
        let name := line.takeWhile fun c ↦ c ≠ 35 ∧ c ≠ 13 ∧ c ≠ 10
        if name = [] then db else addDomainAuthority db name 256) db

/-- The loop of `master_init` that adds authority for the networks of the addresses. -/
def autoAuthority (db : List DnsRecord) : List DnsRecord :=
  db.foldl
    (fun all rec ↦ match rec.u with
      | .nameip arpa _ =>
        let arpaname := (arpa.string ++ arpadomain).take 197
        match arpaname.dropWhile (· ≠ 46) with
        | [] => all
        | _ :: domain =>
          if (authorityLookup all domain).isSome then all
          else addDomainAuthority all domain (200 + (arpaname.length - domain.length))
      | _ => all) db

/-- The text `localhost`. -/
def localhost : List UInt8 := [108, 111, 99, 97, 108, 104, 111, 115, 116]

/-- The text `127.0.0.1`. -/
def loopback : List UInt8 := [49, 50, 55, 46, 48, 46, 48, 46, 49]

/-- The text `0.0.127`. -/
def loopbackNetwork : List UInt8 := [48, 46, 48, 46, 49, 50, 55]

def masterInit (files : FileSystem) (stack masterConfig blacklist : List UInt8) : List DnsRecord :=
  let db := addNameip inetAton [] localhost 10 loopback
  let db := addDns db (loopbackNetwork ++ arpadomain) 21 localhost 10
  autoAuthority (readConfiguration inetAton files stack masterConfig
    (readBlacklist files blacklist db))

end Files

end CrossBreeder.Dnrd
