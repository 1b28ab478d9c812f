import CrossBreeder.Foundation.CString
import CrossBreeder.Foundation.SharedWindows
import CrossBreeder.Foundation.TextFields

/-!
# The configuration of rinetd

`match.c` and `readConfiguration`. The configuration file is read line by line; a line is an allow
or deny rule, a setting of the log, or a forwarding rule, and a forwarding rule is accepted only if
its ports and hosts can be resolved and its server socket be set up. Rules go into two shared
arrays, and each accepted forwarding rule has a window into each of them.

`configuration_of_file` says what the windows hold: the rules that follow the forwarding rule up to
the next accepted one. `rulesInScope_iff` says exactly when these are the rules behind the
forwarding rule, and `rule_of_rejected_line_is_inherited` is a file for which they are not.
-/

namespace CrossBreeder.Rinetd

open Foundation

/-! ### Patterns -/

def charAt (text : List UInt8) (k : ℕ) : UInt8 := text.getD k 0

/-- The code behind the label `nextPattern`: the position behind the next bar, `none` when the
pattern ends first. -/
def nextPattern (p : List UInt8) : ℕ → ℕ → Option ℕ
  | 0, _ => none
  | fuel + 1, pos =>
    if charAt p pos = 0 then none
    else if charAt p pos = 124 then some (pos + 1)
    else nextPattern p fuel (pos + 1)

/-- The word behind a star: the position of the star, bar or end that closes it. -/
def wordEnd (p : List UInt8) : ℕ → ℕ → ℕ
  | 0, pos => pos
  | fuel + 1, pos =>
    if charAt p pos = 42 ∨ charAt p pos = 0 ∨ charAt p pos = 124 then pos
    else wordEnd p fuel (pos + 1)

/-- How the search for a word ends: the whole pattern matches, or it goes on behind the word, or the
word is not found. -/
inductive WordSearch
  | accepted
  | found (s : ℕ)
  | missing
  deriving DecidableEq, Repr

def wordCharMatches (text word : UInt8) : Bool :=
  text = word ∨ (text = 0 ∧ word = 124) ∨ (text ≠ 0 ∧ text ≠ 124 ∧ word = 63)

/-- The inner loop of `matchBody`: the next place in the text where the word stands. -/
def findWord (memory p : List UInt8) (word wordLen last : ℕ) : ℕ → ℕ → ℕ → WordSearch
  | 0, _, _ => .missing
  | fuel + 1, s, wordPos =>
    if wordPos = wordLen then
      if charAt p last = 0 ∨ charAt p last = 124 then .accepted else .found s
    else if wordCharMatches (charAt memory s) (charAt p (word + wordPos)) then
      findWord memory p word wordLen last fuel (s + 1) (wordPos + 1)
    else if charAt memory (s - wordPos) = 0 then .missing
    else findWord memory p word wordLen last fuel (s - wordPos + 1) 0

/-- The outer loop of `matchBody`, from a position in the text and one in the pattern. The text is
read in the memory it is stored in, since a question mark can step over its end. -/
def matchLoop (memory p : List UInt8) : ℕ → ℕ → ℕ → Bool → Bool
  | 0, _, _, _ => false
  | fuel + 1, s, pos, escaped =>
    let retry := match nextPattern p (p.length + 1) pos with
      | none => false
      | some pos => matchLoop memory p fuel 0 pos false
    if escaped then
      if charAt memory s = 0 ∧ charAt p pos = 0 then true
      else if charAt p pos ≠ charAt memory s then retry
      else matchLoop memory p fuel (s + 1) (pos + 1) false
    else if charAt p pos = 92 then matchLoop memory p fuel s (pos + 1) true
    else if charAt p pos = 42 then
      let last := wordEnd p (p.length + 1) (pos + 1)
      let wordLen := if charAt p last = 42 then last - (pos + 1) else last - (pos + 1) + 1
      match findWord memory p (pos + 1) wordLen last ((memory.length + 2) * (p.length + 2)) s 0 with
      | .accepted => true
      | .found s => matchLoop memory p fuel s last false
      | .missing => match nextPattern p (p.length + 1) last with
        | none => false
        | some pos => matchLoop memory p fuel 0 pos false
    else if charAt p pos = 63 then matchLoop memory p fuel (s + 1) (pos + 1) false
    else if charAt memory s = 0 ∧ (charAt p pos = 0 ∨ charAt p pos = 124) then true
    else if charAt p pos ≠ charAt memory s then retry
    else matchLoop memory p fuel (s + 1) (pos + 1) false

/-- `match` of the text at the start of a piece of memory against a pattern. -/
def matches? (memory p : List UInt8) : Bool := matchLoop memory p (p.length + 2) 0 0 false

example : matches? [49, 48, 46, 49, 46, 50, 46, 51, 0] [49, 48, 46, 42] = true := by decide
example : matches? [49, 49, 46, 49, 46, 50, 46, 51, 0] [49, 48, 46, 42] = false := by decide
example : matches? [49, 46, 50, 0] [49, 46, 63, 124, 50] = true := by decide

/-! ### Lines and words -/

/-- The room of the array `line` for characters. -/
def lineRoom : ℕ := 16383

/-- `getConfLine` until the end of the file: the lines that are neither blank nor a comment. Each
call of `fgets` takes at least one byte. -/
def confLines : ℕ → List UInt8 → List (List UInt8)
  | 0, _ => []
  | fuel + 1, file =>
    if file = [] then []
    else
      let line := cstr (fgets lineRoom file).1
      let rest := confLines fuel (fgets lineRoom file).2
      match line.dropWhile isSpace with
      | [] => rest
      | c :: _ => if c = 35 then rest else line :: rest

def isDelimiter (c : UInt8) : Bool := c = 32 ∨ c = 9 ∨ c = 13 ∨ c = 10

/-- `strtok` with these delimiters: the next word and what is behind it. -/
def strtok (text : List UInt8) : Option (List UInt8 × List UInt8) :=
  match text.dropWhile isDelimiter with
  | [] => none
  | c :: text =>
    some ((c :: text).takeWhile (! isDelimiter ·), ((c :: text).dropWhile (! isDelimiter ·)).drop 1)

/-- `patternBad`. Its loop returns in the first iteration. -/
def patternBad : List UInt8 → Bool
  | [] => true
  | _ :: _ => false

/-! ### Forwarding rules -/

/-- What the system answers on behalf of a line of the file. -/
structure Outcomes where
  service : List UInt8 → Option ℕ
  host : List UInt8 → Option UInt32
  inetAddr : List UInt8 → UInt32
  socket : Bool
  bind : Bool
  listen : Bool

structure Server where
  localAddr : UInt32
  fromHost : List UInt8
  fromPort : ℕ
  toHost : List UInt8
  toPort : ℕ
  deriving DecidableEq, Inhabited, Repr

inductive Rejection
  | noBindPort
  | bindPortOutOfRange
  | noConnectAddress
  | noConnectPort
  | connectPortOutOfRange
  | bindHostUnresolved
  | socketFailed
  | bindFailed
  | listenFailed
  | connectHostUnresolved
  deriving DecidableEq, Repr

/-- A port given by the name of a service or by a number, as an `unsigned short`. -/
def portOf (outcomes : Outcomes) (text : List UInt8) : ℕ :=
  match outcomes.service text with
  | some port => port % 65536
  | none => (atoi 64 text % 65536).toNat

def getAddress (outcomes : Outcomes) (host : List UInt8) : Option UInt32 :=
  if host.all fun c ↦ (48 ≤ c ∧ c ≤ 57) ∨ c = 46 then some (outcomes.inetAddr host)
  else outcomes.host host

/-- A forwarding rule: its words are read and its server socket is set up. -/
def forwardingRule (outcomes : Outcomes) (bindAddress rest : List UInt8) :
    Except Rejection Server := do
  let (bindPortS, rest) ← (strtok rest).elim (.error .noBindPort) .ok
  let bindPort := portOf outcomes bindPortS
  if bindPort = 0 ∨ 65536 ≤ bindPort then .error .bindPortOutOfRange
  let (connectAddress, rest) ← (strtok rest).elim (.error .noConnectAddress) .ok
  let (connectPortS, _) ← (strtok rest).elim (.error .noConnectPort) .ok
  let connectPort := portOf outcomes connectPortS
  if connectPort = 0 ∨ 65536 ≤ connectPort then .error .connectPortOutOfRange
  let _ ← (getAddress outcomes bindAddress).elim (.error .bindHostUnresolved) .ok
  if !outcomes.socket then .error .socketFailed
  if !outcomes.bind then .error .bindFailed
  if !outcomes.listen then .error .listenFailed
  let localAddr ← (getAddress outcomes connectAddress).elim (.error .connectHostUnresolved) .ok
  return ⟨localAddr, bindAddress, bindPort, connectAddress, connectPort⟩

/-! ### The file -/

/-- A line of the file as the second pass takes it. A rule without a pattern is not stored, and a
setting without a name is not made. -/
inductive ConfLine
  | allow (pattern : Option (List UInt8))
  | deny (pattern : Option (List UInt8))
  | logfile (name : Option (List UInt8))
  | pidlogfile (name : Option (List UInt8))
  | logcommon
  | forward (server : Except Rejection Server)

def parseLine (outcomes : Outcomes) (line : List UInt8) : Option ConfLine :=
  match strtok line with
  | none => none
  | some (bindAddress, rest) =>
    let next := (strtok rest).map Prod.fst
    -- allow, deny, logfile, pidlogfile, logcommon
    some <|
      if bindAddress = [97, 108, 108, 111, 119] then .allow (next.filter (! patternBad ·))
      else if bindAddress = [100, 101, 110, 121] then .deny next
      else if bindAddress = [108, 111, 103, 102, 105, 108, 101] then .logfile next
      else if bindAddress = [112, 105, 100, 108, 111, 103, 102, 105, 108, 101] then .pidlogfile next
      else if bindAddress = [108, 111, 103, 99, 111, 109, 109, 111, 110] then .logcommon
      else .forward (forwardingRule outcomes bindAddress rest)

/-- The lines of a file, with what the system answers for each line number. -/
def parseFile (outcomes : ℕ → Outcomes) (file : List UInt8) : List ConfLine :=
  ((confLines file.length file).zipIdx 1).filterMap fun line ↦ parseLine (outcomes line.2) line.1

/-- The configuration: the forwarding rules that have been set up, and the arrays of rules, which
start with the global rules and have a window for each forwarding rule. -/
structure Settings where
  servers : List Server
  allowRules : Windowed (List UInt8)
  denyRules : Windowed (List UInt8)
  logFileName : Option (List UInt8)
  pidLogFileName : Option (List UInt8)
  logFormatCommon : Bool

def Settings.empty : Settings := ⟨[], .empty, .empty, none, none, false⟩

/-- One iteration of the second pass. -/
def readLine (settings : Settings) : ConfLine → Settings
  | .allow (some pattern) => { settings with allowRules := settings.allowRules.push pattern }
  | .deny (some pattern) => { settings with denyRules := settings.denyRules.push pattern }
  | .logfile (some name) => { settings with logFileName := some name }
  | .pidlogfile (some name) => { settings with pidLogFileName := some name }
  | .logcommon => { settings with logFormatCommon := true }
  | .forward (.ok server) =>
    { settings with
      servers := settings.servers ++ [server]
      allowRules := settings.allowRules.openWindow
      denyRules := settings.denyRules.openWindow }
  | _ => settings

/-- `readConfiguration` when there is memory for it. -/
def readConfiguration (outcomes : ℕ → Outcomes) (file : List UInt8) : Settings :=
  (parseFile outcomes file).foldl readLine .empty

/-! ### What the windows hold -/

def ConfLine.allowPattern : ConfLine → Option (List UInt8)
  | .allow pattern => pattern
  | _ => none

def ConfLine.denyPattern : ConfLine → Option (List UInt8)
  | .deny pattern => pattern
  | _ => none

def ConfLine.IsForward (line : ConfLine) : Prop := ∃ server, line = .forward server

/-- What a line does to an array of rules, given the rule it has for that array. -/
def attach (rule : ConfLine → Option (List UInt8)) (rules : Windowed (List UInt8)) :
    ConfLine → Windowed (List UInt8)
  | .forward (.ok _) => rules.openWindow
  | line => (rule line).elim rules rules.push

def ownRules (rule : ConfLine → Option (List UInt8)) : List ConfLine → List (List UInt8)
  | [] => []
  | .forward (.ok _) :: _ => []
  | line :: lines => (rule line).toList ++ ownRules rule lines

/-- For each accepted forwarding rule the rules before the next accepted one. -/
def loadedScopes (rule : ConfLine → Option (List UInt8)) : List ConfLine → List (List (List UInt8))
  | [] => []
  | .forward (.ok _) :: lines => ownRules rule lines :: loadedScopes rule lines
  | _ :: lines => loadedScopes rule lines

section Windows

variable (rule : ConfLine → Option (List UInt8))

theorem allowRules_readLine (settings : Settings) (line : ConfLine) :
    (readLine settings line).allowRules =
      attach ConfLine.allowPattern settings.allowRules line := by
  rcases line with pattern | pattern | name | name | _ | server
  · cases pattern <;> rfl
  · cases pattern <;> rfl
  · cases name <;> rfl
  · cases name <;> rfl
  · rfl
  · cases server <;> rfl

theorem denyRules_readLine (settings : Settings) (line : ConfLine) :
    (readLine settings line).denyRules =
      attach ConfLine.denyPattern settings.denyRules line := by
  rcases line with pattern | pattern | name | name | _ | server
  · cases pattern <;> rfl
  · cases pattern <;> rfl
  · cases name <;> rfl
  · cases name <;> rfl
  · rfl
  · cases server <;> rfl

theorem rules_foldl_readLine (lines : List ConfLine) (settings : Settings) :
    (lines.foldl readLine settings).allowRules =
        lines.foldl (attach ConfLine.allowPattern) settings.allowRules ∧
      (lines.foldl readLine settings).denyRules =
        lines.foldl (attach ConfLine.denyPattern) settings.denyRules := by
  induction lines generalizing settings with
  | nil => exact ⟨rfl, rfl⟩
  | cons line lines ih =>
    rw [List.foldl_cons, List.foldl_cons, List.foldl_cons, ← allowRules_readLine,
      ← denyRules_readLine]
    exact ih _

theorem line_cases (line : ConfLine) :
    (∃ server, line = .forward (.ok server)) ∨
      ((∀ rules, attach rule rules line = (rule line).elim rules rules.push) ∧
        (∀ lines, ownRules rule (line :: lines) = (rule line).toList ++ ownRules rule lines) ∧
        ∀ lines, loadedScopes rule (line :: lines) = loadedScopes rule lines) := by
  rcases line with _ | _ | _ | _ | _ | (_ | server)
  · exact Or.inr ⟨fun _ ↦ rfl, fun _ ↦ rfl, fun _ ↦ rfl⟩
  · exact Or.inr ⟨fun _ ↦ rfl, fun _ ↦ rfl, fun _ ↦ rfl⟩
  · exact Or.inr ⟨fun _ ↦ rfl, fun _ ↦ rfl, fun _ ↦ rfl⟩
  · exact Or.inr ⟨fun _ ↦ rfl, fun _ ↦ rfl, fun _ ↦ rfl⟩
  · exact Or.inr ⟨fun _ ↦ rfl, fun _ ↦ rfl, fun _ ↦ rfl⟩
  · exact Or.inr ⟨fun _ ↦ rfl, fun _ ↦ rfl, fun _ ↦ rfl⟩
  · exact Or.inl ⟨server, rfl⟩

theorem holds_foldl_last (lines : List ConfLine) :
    ∀ {rules : Windowed (List UInt8)} {first : List (List UInt8)}
      {front : List (List (List UInt8))} {last : List (List UInt8)},
      rules.Holds first (front ++ [last]) →
      (lines.foldl (attach rule) rules).Holds first
        (front ++ (last ++ ownRules rule lines) :: loadedScopes rule lines) := by
  induction lines with
  | nil =>
    intro rules first front last h
    simpa [ownRules, loadedScopes] using h
  | cons line lines ih =>
    intro rules first front last h
    rw [List.foldl_cons]
    rcases line_cases rule line with ⟨server, rfl⟩ | ⟨hattach, hown, hscopes⟩
    · simpa [ownRules, loadedScopes, attach] using ih h.openWindow
    · rw [hattach, hown, hscopes]
      rcases rule line with _ | pattern
      · simpa using ih h
      · simpa using ih (h.push_last pattern)

theorem holds_foldl_leading (lines : List ConfLine) :
    ∀ {rules : Windowed (List UInt8)} {first : List (List UInt8)}, rules.Holds first [] →
      (lines.foldl (attach rule) rules).Holds (first ++ ownRules rule lines)
        (loadedScopes rule lines) := by
  induction lines with
  | nil =>
    intro rules first h
    simpa [ownRules, loadedScopes] using h
  | cons line lines ih =>
    intro rules first h
    rw [List.foldl_cons]
    rcases line_cases rule line with ⟨server, rfl⟩ | ⟨hattach, hown, hscopes⟩
    · have hopen : rules.openWindow.Holds first ([] ++ [[]]) := h.openWindow
      simpa [ownRules, loadedScopes, attach] using holds_foldl_last rule lines hopen
    · rw [hattach, hown, hscopes]
      rcases rule line with _ | pattern
      · simpa using ih h
      · simpa using ih (h.push_leading pattern)

end Windows

theorem holds_allowRules (outcomes : ℕ → Outcomes) (file : List UInt8) :
    (readConfiguration outcomes file).allowRules.Holds
      (ownRules ConfLine.allowPattern (parseFile outcomes file))
      (loadedScopes ConfLine.allowPattern (parseFile outcomes file)) := by
  rw [readConfiguration, (rules_foldl_readLine _ _).1]
  exact holds_foldl_leading _ _ Windowed.holds_empty

theorem holds_denyRules (outcomes : ℕ → Outcomes) (file : List UInt8) :
    (readConfiguration outcomes file).denyRules.Holds
      (ownRules ConfLine.denyPattern (parseFile outcomes file))
      (loadedScopes ConfLine.denyPattern (parseFile outcomes file)) := by
  rw [readConfiguration, (rules_foldl_readLine _ _).2]
  exact holds_foldl_leading _ _ Windowed.holds_empty

/-! ### Scopes -/

structure Scope where
  server : Server
  allow : List (List UInt8)
  deny : List (List UInt8)
  deriving DecidableEq, Repr

/-- The forwarding rules of a configuration with the contents of their windows. -/
def Settings.scopes (settings : Settings) : List Scope :=
  List.zipWith (fun server rules ↦ ⟨server, rules.1, rules.2⟩) settings.servers
    ((settings.allowRules.windows.map settings.allowRules.itemsOf).zip
      (settings.denyRules.windows.map settings.denyRules.itemsOf))

def leadingRules (rule : ConfLine → Option (List UInt8)) : List ConfLine → List (List UInt8)
  | [] => []
  | .forward _ :: _ => []
  | line :: lines => (rule line).toList ++ leadingRules rule lines

/-- The scopes of a file by its documentation: the rules which appear after a specific forwarding
rule apply to that forwarding rule only. -/
def documentedScopes : List ConfLine → List Scope
  | [] => []
  | .forward (.ok server) :: lines =>
    ⟨server, leadingRules ConfLine.allowPattern lines, leadingRules ConfLine.denyPattern lines⟩ ::
      documentedScopes lines
  | _ :: lines => documentedScopes lines

/-- Every rule of the file is applied to the forwarding rule line that most recently precedes it,
and globally if there is none. -/
structure RulesInScope (lines : List ConfLine) (settings : Settings) : Prop where
  globalAllow : settings.allowRules.leadingItems = leadingRules ConfLine.allowPattern lines
  globalDeny : settings.denyRules.leadingItems = leadingRules ConfLine.denyPattern lines
  scopes : settings.scopes = documentedScopes lines

/-- A rule stands behind a rejected forwarding rule line with no forwarding rule line between them.
-/
def RuleBehindRejected (lines : List ConfLine) : Prop :=
  ∃ front rejection between line back,
    lines = front ++ .forward (.error rejection) :: (between ++ line :: back) ∧
      (∀ other ∈ between, ¬ other.IsForward) ∧
      (line.allowPattern ≠ none ∨ line.denyPattern ≠ none)

/-- The forwarding rules that have been set up. -/
def acceptedServers (lines : List ConfLine) : List Server :=
  lines.filterMap fun
    | .forward (.ok server) => some server
    | _ => none

theorem servers_foldl_readLine (lines : List ConfLine) (settings : Settings) :
    (lines.foldl readLine settings).servers = settings.servers ++ acceptedServers lines := by
  induction lines generalizing settings with
  | nil => simp [acceptedServers]
  | cons line lines ih =>
    rw [List.foldl_cons, ih]
    rcases line with (_ | _) | (_ | _) | (_ | _) | (_ | _) | _ | (_ | _) <;>
      simp [readLine, acceptedServers]

/-- The scopes of the configuration that a file gives. -/
def configuredScopes : List ConfLine → List Scope
  | [] => []
  | .forward (.ok server) :: lines =>
    ⟨server, ownRules ConfLine.allowPattern lines, ownRules ConfLine.denyPattern lines⟩ ::
      configuredScopes lines
  | _ :: lines => configuredScopes lines

theorem zipWith_loadedScopes (lines : List ConfLine) :
    List.zipWith (fun server rules ↦ Scope.mk server rules.1 rules.2) (acceptedServers lines)
        ((loadedScopes ConfLine.allowPattern lines).zip
          (loadedScopes ConfLine.denyPattern lines)) = configuredScopes lines := by
  induction lines with
  | nil => rfl
  | cons line lines ih =>
    rcases line with _ | _ | _ | _ | _ | (_ | server)
    · exact ih
    · exact ih
    · exact ih
    · exact ih
    · exact ih
    · exact ih
    · exact congrArg _ ih

theorem configuration_of_file (outcomes : ℕ → Outcomes) (file : List UInt8) :
    let lines := parseFile outcomes file
    let settings := readConfiguration outcomes file
    settings.allowRules.leadingItems = ownRules ConfLine.allowPattern lines ∧
      settings.denyRules.leadingItems = ownRules ConfLine.denyPattern lines ∧
      settings.scopes = configuredScopes lines := by
  intro lines settings
  have hallow := holds_allowRules outcomes file
  have hdeny := holds_denyRules outcomes file
  refine ⟨hallow.leadingItems_eq, hdeny.leadingItems_eq, ?_⟩
  have hservers : settings.servers = acceptedServers lines := servers_foldl_readLine lines .empty
  rw [Settings.scopes, hallow.map_itemsOf, hdeny.map_itemsOf, hservers]
  exact zipWith_loadedScopes lines

/-! ### Rules behind a rejected line -/

def orphanRules (rule : ConfLine → Option (List UInt8)) : List ConfLine → List (List UInt8)
  | [] => []
  | .forward (.error _) :: lines => leadingRules rule lines ++ orphanRules rule lines
  | _ :: lines => orphanRules rule lines

section Orphans

variable {rule : ConfLine → Option (List UInt8)}

/-- A line is an accepted forwarding rule, a rejected one, or it has its rule for the lists. -/
theorem scope_cases (hrule : ∀ server, rule (.forward server) = none) (line : ConfLine) :
    (∃ server, line = .forward (.ok server)) ∨
      (∃ rejection, line = .forward (.error rejection) ∧
        ∀ lines, ownRules rule (line :: lines) = ownRules rule lines) ∨
      (¬ line.IsForward ∧
        ∀ lines, ownRules rule (line :: lines) = (rule line).toList ++ ownRules rule lines ∧
          leadingRules rule (line :: lines) = (rule line).toList ++ leadingRules rule lines ∧
          orphanRules rule (line :: lines) = orphanRules rule lines ∧
          loadedScopes rule (line :: lines) = loadedScopes rule lines) := by
  rcases line with _ | _ | _ | _ | _ | (rejection | server)
  · exact Or.inr (Or.inr ⟨by simp [ConfLine.IsForward], fun _ ↦ ⟨rfl, rfl, rfl, rfl⟩⟩)
  · exact Or.inr (Or.inr ⟨by simp [ConfLine.IsForward], fun _ ↦ ⟨rfl, rfl, rfl, rfl⟩⟩)
  · exact Or.inr (Or.inr ⟨by simp [ConfLine.IsForward], fun _ ↦ ⟨rfl, rfl, rfl, rfl⟩⟩)
  · exact Or.inr (Or.inr ⟨by simp [ConfLine.IsForward], fun _ ↦ ⟨rfl, rfl, rfl, rfl⟩⟩)
  · exact Or.inr (Or.inr ⟨by simp [ConfLine.IsForward], fun _ ↦ ⟨rfl, rfl, rfl, rfl⟩⟩)
  · exact Or.inr (Or.inl ⟨rejection, rfl, fun lines ↦ by simp [ownRules, hrule]⟩)
  · exact Or.inl ⟨server, rfl⟩

/-- Without orphans the rules before the next accepted forwarding rule are those before the next
forwarding rule line. -/
theorem ownRules_eq_leadingRules (hrule : ∀ server, rule (.forward server) = none)
    {lines : List ConfLine} (h : orphanRules rule lines = []) :
    ownRules rule lines = leadingRules rule lines := by
  induction lines with
  | nil => rfl
  | cons line lines ih =>
    rcases scope_cases hrule line with ⟨server, rfl⟩ | ⟨rejection, rfl, hown⟩ | ⟨-, hline⟩
    · rfl
    · obtain ⟨hnone, hrest⟩ := List.append_eq_nil_iff.mp h
      rw [hown, ih hrest, hnone]
      rfl
    · obtain ⟨hown, hleading, horphan, -⟩ := hline lines
      rw [horphan] at h
      rw [hown, hleading, ih h]

variable (rule) in
/-- Every rule of the file is in the configuration, and in its documented place or an orphan. -/
theorem length_rules (get : Scope → List (List UInt8))
    (hrule : ∀ server, rule (.forward server) = none)
    (hget : ∀ server (rules : (ConfLine → Option (List UInt8)) → List (List UInt8)),
      get ⟨server, rules ConfLine.allowPattern, rules ConfLine.denyPattern⟩ = rules rule)
    (lines : List ConfLine) :
    (ownRules rule lines).length +
      ((configuredScopes lines).map fun scope ↦ (get scope).length).sum =
      (leadingRules rule lines).length +
        ((documentedScopes lines).map fun scope ↦ (get scope).length).sum +
          (orphanRules rule lines).length := by
  induction lines with
  | nil => rfl
  | cons line lines ih =>
    rcases line with _ | _ | _ | _ | _ | (_ | server)
    case forward.error =>
      simp only [ownRules, configuredScopes, leadingRules, documentedScopes, orphanRules, hrule,
        Option.toList_none, List.nil_append, List.length_nil, List.length_append]
      omega
    case forward.ok =>
      have hown := hget server fun rule ↦ ownRules rule lines
      have hleading := hget server fun rule ↦ leadingRules rule lines
      simp only [ownRules, configuredScopes, leadingRules, documentedScopes, orphanRules,
        List.map_cons, List.sum_cons, List.length_nil, hown, hleading]
      omega
    all_goals
      simp only [ownRules, configuredScopes, leadingRules, documentedScopes, orphanRules,
        List.length_append]
      omega

theorem leadingRules_eq_nil_iff (lines : List ConfLine)
    (hrule : ∀ server, rule (.forward server) = none) :
    leadingRules rule lines = [] ↔ ∀ between line back, lines = between ++ line :: back →
      (∀ other ∈ between, ¬ other.IsForward) → rule line = none := by
  induction lines with
  | nil => simp [leadingRules]
  | cons line lines ih =>
    by_cases hforward : line.IsForward
    · obtain ⟨server, rfl⟩ := hforward
      refine iff_of_true rfl fun between line back hlines hbetween ↦ ?_
      rcases between with _ | ⟨head, between⟩
      · obtain ⟨rfl, -⟩ := List.cons.inj hlines
        exact hrule server
      · obtain ⟨rfl, -⟩ := List.cons.inj hlines
        exact absurd ⟨server, rfl⟩ (hbetween _ List.mem_cons_self)
    · have hcons : leadingRules rule (line :: lines) =
          (rule line).toList ++ leadingRules rule lines := by
        rcases scope_cases hrule line with ⟨server, rfl⟩ | ⟨rejection, rfl, -⟩ | ⟨-, hline⟩
        · exact absurd ⟨_, rfl⟩ hforward
        · exact absurd ⟨_, rfl⟩ hforward
        · exact (hline lines).2.1
      rw [hcons, List.append_eq_nil_iff, Option.toList_eq_nil_iff, ih]
      constructor
      · rintro ⟨hnone, hrest⟩ between line' back hlines hbetween
        rcases between with _ | ⟨head, between⟩
        · obtain ⟨rfl, -⟩ := List.cons.inj hlines
          exact hnone
        · obtain ⟨-, hlines⟩ := List.cons.inj hlines
          exact hrest between line' back hlines fun other hother ↦
            hbetween other (List.mem_cons_of_mem _ hother)
      · intro h
        refine ⟨h [] line lines rfl (by simp), fun between line' back hlines hbetween ↦ ?_⟩
        refine h (line :: between) line' back (by rw [hlines]; rfl) fun other hother ↦ ?_
        rcases List.mem_cons.mp hother with rfl | hother
        · exact hforward
        · exact hbetween other hother

theorem orphanRules_eq_nil_iff (lines : List ConfLine) :
    orphanRules rule lines = [] ↔ ∀ front rejection back,
      lines = front ++ .forward (.error rejection) :: back → leadingRules rule back = [] := by
  induction lines with
  | nil => simp [orphanRules]
  | cons line lines ih =>
    have hsplit : orphanRules rule (line :: lines) = [] ↔
        (∀ rejection, line = .forward (.error rejection) → leadingRules rule lines = []) ∧
          orphanRules rule lines = [] := by
      rcases line with _ | _ | _ | _ | _ | (_ | _) <;> simp [orphanRules]
    rw [hsplit, ih]
    constructor
    · rintro ⟨hhead, htail⟩ front rejection back hlines
      rcases front with _ | ⟨head, front⟩
      · obtain ⟨rfl, rfl⟩ := List.cons.inj hlines
        exact hhead rejection rfl
      · exact htail front rejection back (List.cons.inj hlines).2
    · intro h
      refine ⟨fun rejection hline ↦ h [] rejection lines (by rw [hline]; rfl), ?_⟩
      intro front rejection back hlines
      exact h (line :: front) rejection back (by rw [hlines]; rfl)

end Orphans

theorem no_orphans_iff (lines : List ConfLine) :
    orphanRules ConfLine.allowPattern lines = [] ∧ orphanRules ConfLine.denyPattern lines = [] ↔
      ¬ RuleBehindRejected lines := by
  simp only [orphanRules_eq_nil_iff]
  constructor
  · rintro ⟨hallow, hdeny⟩ ⟨front, rejection, between, line, back, hlines, hbetween, hline⟩
    have hallow := (leadingRules_eq_nil_iff _ fun _ ↦ rfl).mp (hallow front rejection _ hlines)
      between line back rfl hbetween
    have hdeny := (leadingRules_eq_nil_iff _ fun _ ↦ rfl).mp (hdeny front rejection _ hlines)
      between line back rfl hbetween
    rcases hline with hline | hline
    · exact hline hallow
    · exact hline hdeny
  · intro h
    constructor
    · intro front rejection back hlines
      refine (leadingRules_eq_nil_iff _ fun _ ↦ rfl).mpr fun between line back hback hbetween ↦ ?_
      by_contra hline
      exact h ⟨front, rejection, between, line, back, by rw [hlines, hback], hbetween, Or.inl hline⟩
    · intro front rejection back hlines
      refine (leadingRules_eq_nil_iff _ fun _ ↦ rfl).mpr fun between line back hback hbetween ↦ ?_
      by_contra hline
      exact h ⟨front, rejection, between, line, back, by rw [hlines, hback], hbetween, Or.inr hline⟩

theorem configuredScopes_eq_documentedScopes {lines : List ConfLine}
    (hallow : orphanRules ConfLine.allowPattern lines = [])
    (hdeny : orphanRules ConfLine.denyPattern lines = []) :
    configuredScopes lines = documentedScopes lines := by
  induction lines with
  | nil => rfl
  | cons line lines ih =>
    rcases line with _ | _ | _ | _ | _ | (_ | server)
    case forward.error =>
      exact ih (List.append_eq_nil_iff.mp hallow).2 (List.append_eq_nil_iff.mp hdeny).2
    case forward.ok =>
      have hownAllow : ownRules ConfLine.allowPattern lines =
          leadingRules ConfLine.allowPattern lines := ownRules_eq_leadingRules (fun _ ↦ rfl) hallow
      have hownDeny : ownRules ConfLine.denyPattern lines =
          leadingRules ConfLine.denyPattern lines := ownRules_eq_leadingRules (fun _ ↦ rfl) hdeny
      rw [configuredScopes, documentedScopes, ih hallow hdeny, hownAllow, hownDeny]
    all_goals exact ih hallow hdeny

/-- The rules of a file are applied where the documentation says exactly when no rule stands behind
a rejected forwarding rule line. -/
theorem rulesInScope_iff (outcomes : ℕ → Outcomes) (file : List UInt8) :
    RulesInScope (parseFile outcomes file) (readConfiguration outcomes file) ↔
      ¬ RuleBehindRejected (parseFile outcomes file) := by
  obtain ⟨hallow, hdeny, hscopes⟩ := configuration_of_file outcomes file
  rw [← no_orphans_iff]
  constructor
  · rintro ⟨hglobalAllow, hglobalDeny, hscope⟩
    have hallowCount := length_rules ConfLine.allowPattern Scope.allow (fun _ ↦ rfl)
      (fun _ _ ↦ rfl) (parseFile outcomes file)
    have hdenyCount := length_rules ConfLine.denyPattern Scope.deny (fun _ ↦ rfl)
      (fun _ _ ↦ rfl) (parseFile outcomes file)
    rw [← hscopes, ← hallow, hglobalAllow, hscope] at hallowCount
    rw [← hscopes, ← hdeny, hglobalDeny, hscope] at hdenyCount
    exact ⟨List.length_eq_zero_iff.mp (by omega), List.length_eq_zero_iff.mp (by omega)⟩
  · rintro ⟨hnoAllow, hnoDeny⟩
    refine ⟨?_, ?_, ?_⟩
    · rw [hallow, ownRules_eq_leadingRules (fun _ ↦ rfl) hnoAllow]
    · rw [hdeny, ownRules_eq_leadingRules (fun _ ↦ rfl) hnoDeny]
    · rw [hscopes, configuredScopes_eq_documentedScopes hnoAllow hnoDeny]

/-- Hosts are resolved, and `bind` fails on the second line. -/
def secondBindFails (line : ℕ) : Outcomes where
  service _ := none
  host _ := some 16777343
  inetAddr _ := 0
  socket := true
  bind := line ≠ 2
  listen := true

/-- The file with the lines `a 1 b 2`, `a 3 b 4` and `deny *`. -/
def denyBehindSecond : List UInt8 :=
  [97, 32, 49, 32, 98, 32, 50, 10, 97, 32, 51, 32, 98, 32, 52, 10, 100, 101, 110, 121, 32, 42, 10]

/-- When the second forwarding rule cannot be bound, the deny rule behind it is applied to the first
one. -/
theorem rule_of_rejected_line_is_inherited :
    (readConfiguration secondBindFails denyBehindSecond).scopes =
        [⟨⟨16777343, [97], 1, [98], 2⟩, [], [[42]]⟩] ∧
      ¬ RulesInScope (parseFile secondBindFails denyBehindSecond)
        (readConfiguration secondBindFails denyBehindSecond) := by
  have hconfigured : (readConfiguration secondBindFails denyBehindSecond).scopes =
      [⟨⟨16777343, [97], 1, [98], 2⟩, [], [[42]]⟩] := by decide
  have hdocumented : documentedScopes (parseFile secondBindFails denyBehindSecond) =
      [⟨⟨16777343, [97], 1, [98], 2⟩, [], []⟩] := by decide
  refine ⟨hconfigured, fun h ↦ ?_⟩
  have hscopes := h.scopes
  rw [hconfigured, hdocumented] at hscopes
  simp at hscopes

end CrossBreeder.Rinetd
