import CrossBreeder.Dnsmasq.Packet
import CrossBreeder.Foundation.FileTree
import CrossBreeder.Foundation.SeparatedText

/-!
# The names of files in TFTP requests

`tftp_request` puts the name of the file to open together in `namebuff`, which has room for
`MAXDNAME` bytes: the prefix, the directory of the client if there is one, and the name in the
request, which may begin with all of this itself. `check_tftp_fileperm` refuses names with `/../` in
them when there is a prefix. That is enough: a name that is opened begins with the prefix, only its
last component may be `..`, and no walk along it comes to a file outside of the prefix
(`openedName_confined`), also when some of the name did not fit.
-/

namespace CrossBreeder.Dnsmasq

open Foundation

/-! ### The name in the buffer -/

def slash : UInt8 := 47
def backslash : UInt8 := 92
def dot : UInt8 := 46

/-- What a request finds: the prefixes of the configuration, the interface that it came from if that
is known, the options, `tolower` of the locale, the address of the client as text, and `stat`. No
prefix is empty: the source looks at the last character of it. -/
structure TftpSite where
  tftpPrefix : Option (List UInt8)
  ifPrefix : List (List UInt8 × List UInt8)
  interface : Option (List UInt8)
  tftpAPref : Bool
  tftpLC : Bool
  tolower : UInt8 → UInt8
  addrbuff : List UInt8
  isDir : List UInt8 → Bool

/-- `strncat` to `namebuff`. -/
def strncat (namebuff text : List UInt8) :
    List UInt8 := namebuff ++ text.take (maxDname - 1 - namebuff.length)

namespace TftpSite

variable (site : TftpSite)

/-- The prefix in force: the last one of the interface, or the general one. -/
def requestPrefix : Option (List UInt8) :=
  match site.interface with
  | none => site.tftpPrefix
  | some name => site.ifPrefix.foldl (fun found pref ↦ if pref.1 = name then some pref.2 else found)
    site.tftpPrefix

/-- Backslashes become slashes, and other characters small letters on request. -/
def rewrite (filename : List UInt8) : List UInt8 :=
  filename.map fun c ↦ if c = backslash then slash else if site.tftpLC then site.tolower c else c

/-- The name of the directory in `namebuff`. -/
def requestDirectory (dir : List UInt8) : List UInt8 :=
  let namebuff := strncat (if dir.head? = some slash then [] else [slash]) dir
  let namebuff := if dir.getLast? = some slash then namebuff else strncat namebuff [slash]
  if site.tftpAPref then
    let unique := strncat (strncat namebuff site.addrbuff) [slash]
    if site.isDir unique then unique else namebuff
  else namebuff

/-- The name of the file in `namebuff`. -/
def requestName (filename : List UInt8) : List UInt8 :=
  let filename := site.rewrite filename
  match site.requestPrefix with
  | some dir =>
    let namebuff := site.requestDirectory dir
    if filename.head? = some slash then
      if namebuff <+: filename then strncat [] filename else strncat namebuff filename.tail
    else strncat namebuff filename
  | none => strncat (if filename.head? = some slash then [] else [slash]) filename

/-- What `check_tftp_fileperm` looks for. -/
def upward : List UInt8 := [slash, dot, dot, slash]

/-- The name that `check_tftp_fileperm` opens for a request, unless it refuses the name. -/
def openedName (filename : List UInt8) : Option (List UInt8) :=
  if site.requestPrefix.isSome ∧ upward <:+: site.requestName filename then none
  else some (site.requestName filename)

end TftpSite

/-! ### The name begins with the prefix -/

def prefixDirectory (dir : List UInt8) : List UInt8 :=
  (if dir.head? = some slash then dir else slash :: dir) ++ if dir.getLast? =
    some slash then [] else [slash]

section Strncat

variable {namebuff text : List UInt8}

theorem namebuff_le_strncat (namebuff text : List UInt8) : namebuff <+: strncat namebuff text :=
  List.prefix_append _ _

theorem strncat_of_fits (hfits : namebuff.length + text.length < maxDname) :
    strncat namebuff text = namebuff ++ text := by
  unfold strncat
  rw [List.take_of_length_le (by omega)]

theorem length_strncat_lt (hroom : namebuff.length < maxDname) :
    (strncat namebuff text).length < maxDname := by
  unfold strncat
  rw [List.length_append, List.length_take]
  omega

end Strncat

section Prefixes

variable {site : TftpSite} {dir filename : List UInt8}

theorem prefixDirectory_le_requestDirectory (hshort : dir.length < maxDname - 2) :
    prefixDirectory dir <+: site.requestDirectory dir := by
  have hmax : maxDname = 1025 := rfl
  have hstart : strncat (if dir.head? = some slash then [] else [slash]) dir =
      if dir.head? = some slash then dir else slash :: dir := by
    rw [strncat_of_fits (by split_ifs <;> simp <;> omega)]
    split_ifs <;> rfl
  have hwhole :
    (if dir.getLast? = some slash then (if dir.head? = some slash then dir else slash :: dir)
      else strncat (if dir.head? = some slash then dir else slash :: dir) [slash]) =
        prefixDirectory dir := by
    unfold prefixDirectory
    split_ifs with hlast hhead hhead
    · rw [List.append_nil]
    · rw [List.append_nil]
    · exact strncat_of_fits (by simp; omega)
    · exact strncat_of_fits (by simp; omega)
  unfold TftpSite.requestDirectory
  dsimp only
  rw [hstart, hwhole]
  split_ifs
  · exact (namebuff_le_strncat _ _).trans (namebuff_le_strncat _ _)
  · exact List.prefix_refl _
  · exact List.prefix_refl _

theorem length_requestDirectory_lt (site : TftpSite) (dir : List UInt8) :
    (site.requestDirectory dir).length < maxDname := by
  have hstart : (strncat (if dir.head? = some slash then [] else [slash]) dir).length < maxDname :=
    length_strncat_lt (by split_ifs <;> decide)
  unfold TftpSite.requestDirectory
  dsimp only
  generalize strncat (if dir.head? = some slash then [] else [slash]) dir = start at hstart
  have hwhole : (if dir.getLast? = some slash then start else strncat start [slash]).length <
    maxDname := by
    split_ifs
    · exact hstart
    · exact length_strncat_lt hstart
  split_ifs at hwhole ⊢
  all_goals
    first
      | exact hwhole
      | exact length_strncat_lt (length_strncat_lt hwhole)

theorem requestDirectory_le_requestName (hdir : site.requestPrefix = some dir)
    (filename : List UInt8) : site.requestDirectory dir <+: site.requestName filename := by
  unfold TftpSite.requestName
  rw [hdir]
  dsimp only
  split_ifs with hhead hle
  · refine List.prefix_take_iff.mpr ⟨hle, ?_⟩
    have hlength := length_requestDirectory_lt site dir
    simp
    omega
  · exact namebuff_le_strncat _ _
  · exact namebuff_le_strncat _ _

end Prefixes

/-! ### The name stays in the prefix -/

/-- What a component of a name does. -/
def pathStep (component : List UInt8) : PathStep (List UInt8) :=
  if component = [] ∨ component = [dot] then .stay else if component = [dot, dot] then
    .up else .down component

def pathSteps (name : List UInt8) : List (PathStep (List UInt8)) :=
  (name.splitOn slash).map pathStep

theorem pathStep_eq_up_iff {component : List UInt8} :
    pathStep component = .up ↔ component = [dot, dot] := by
  unfold pathStep
  constructor
  · intro hup
    split_ifs at hup with hstay hdots
    exact hdots
  · rintro rfl
    rfl

theorem ne_dots_of_not_upward {name : List UInt8} (hhead : name.head? = some slash)
    (hupward : ¬ TftpSite.upward <:+: name) :
    ∀ component ∈ (name.splitOn slash).dropLast, component ≠ [dot, dot] := by
  rintro component hmem rfl
  obtain ⟨rest, rfl⟩ : ∃ rest, name = slash :: rest := by
    cases name with
    | nil => cases hhead
    | cons c rest => exact ⟨rest, by rw [Option.some.inj hhead]⟩
  -- the component before the first slash is empty
  have hsplit : (slash :: rest).splitOn slash = [] :: rest.splitOn slash := by
    simpa using List.splitOn_append_cons_self (a := slash) [] rest
  rw [hsplit, List.dropLast_cons_of_ne_nil (List.splitOn_ne_nil _ _)] at hmem
  rcases List.mem_cons.mp hmem with hnil | hlater
  · cases hnil
  · exact hupward (surrounded_of_mem_dropLast_splitOn hlater)

theorem prefixDirectory_head (dir : List UInt8) : (prefixDirectory dir).head? = some slash := by
  unfold prefixDirectory
  cases dir with
  | nil => rfl
  | cons c rest => by_cases hc : c = slash <;> simp [hc]

theorem prefixDirectory_getLast (dir : List UInt8) : ∃ front, prefixDirectory dir = front ++
    [slash] := by
  unfold prefixDirectory
  by_cases hlast : dir.getLast? = some slash
  · obtain ⟨front, rfl⟩ := List.getLast?_eq_some_iff.mp hlast
    rw [if_pos hlast, List.append_nil]
    split_ifs
    · exact ⟨front, rfl⟩
    · exact ⟨slash :: front, rfl⟩
  · rw [if_neg hlast]
    exact ⟨_, rfl⟩

/-- The name of a file that is opened begins with the prefix, steps up with its last component at
most, and leads to no file that is not in the directory that the prefix leads to. -/
theorem openedName_confined {site : TftpSite} {dir filename name : List UInt8}
    (hdir : site.requestPrefix = some dir) (hshort : dir.length < maxDname - 2)
    (hopened : site.openedName filename = some name) :
    prefixDirectory dir <+: name ∧
      (∀ component ∈ (name.splitOn slash).dropLast, component ≠ [dot, dot]) ∧
      ∀ (tree : FileTree (List UInt8)) (place : List (List UInt8)), tree.walk
      (pathSteps name) = some place →
        tree.kind place = some .file →
        ∃ top, tree.walk (pathSteps (prefixDirectory dir)) = some top ∧
        tree.kind top = some .directory ∧ top <+: place := by
  obtain ⟨hupward, rfl⟩ : ¬ TftpSite.upward <:+: site.requestName filename ∧
    site.requestName filename = name := by
    unfold TftpSite.openedName at hopened
    rw [hdir] at hopened
    split_ifs at hopened with hrefused
    exact ⟨fun hupward ↦ hrefused ⟨rfl, hupward⟩, Option.some.inj hopened⟩
  have hbegins : prefixDirectory dir <+: site.requestName filename :=
    (prefixDirectory_le_requestDirectory hshort).trans
      (requestDirectory_le_requestName hdir filename)
  have hhead : (site.requestName filename).head? = some slash := by
    obtain ⟨rest, hrest⟩ := hbegins
    rw [← hrest, List.head?_append, prefixDirectory_head]
    rfl
  have hdots := ne_dots_of_not_upward hhead hupward
  refine ⟨hbegins, hdots, fun tree place hwalk hfile ↦ ?_⟩
  -- the components of the prefix, and those behind it
  obtain ⟨rest, hrest⟩ := hbegins
  obtain ⟨front, hfront⟩ := prefixDirectory_getLast dir
  have hsteps : pathSteps (site.requestName filename) = pathSteps front ++ pathSteps rest := by
    unfold pathSteps
    rw [← hrest, hfront, List.append_assoc, List.singleton_append, List.splitOn_append_cons_self,
      List.map_append]
  have hup : ∀ step ∈ (pathSteps front ++ pathSteps rest).dropLast, step ≠ .up := by
    rw [← hsteps]
    unfold pathSteps
    rw [← List.map_dropLast]
    intro step hstep hisup
    obtain ⟨component, hmem, rfl⟩ := List.mem_map.mp hstep
    exact hdots component hmem (pathStep_eq_up_iff.mp hisup)
  have hbehind : pathSteps rest ≠ [] := by
    simp [pathSteps, List.splitOn_ne_nil]
  rw [hsteps] at hwalk
  obtain ⟨top, htop, hbelow⟩ := FileTree.file_below hup hbehind hwalk hfile
  have hdirectory : tree.kind top = some .directory := by
    obtain ⟨step, steps, hcons⟩ := List.exists_cons_of_ne_nil hbehind
    unfold FileTree.walk at hwalk htop
    rw [List.foldlM_append, htop, hcons] at hwalk
    exact FileTree.directory_of_foldlM hwalk
  refine ⟨top, ?_, hdirectory, hbelow⟩
  -- the empty component at the end of the prefix stays where it is
  have hdirSteps : pathSteps (prefixDirectory dir) = pathSteps front ++ [.stay] := by
    unfold pathSteps
    rw [hfront, List.splitOn_append_cons_self, List.map_append]
    rfl
  unfold FileTree.walk at htop ⊢
  rw [hdirSteps, List.foldlM_append, htop]
  simp [FileTree.step, hdirectory]

/-- A site with the prefix `t` for the interface `e` and directories for clients. -/
def sampleSite : TftpSite where
  tftpPrefix := none
  ifPrefix := [([101], [116])]
  interface := some [101]
  tftpAPref := true
  tftpLC := true
  tolower c := if 65 ≤ c ∧ c ≤ 90 then c + 32 else c
  addrbuff := [49]
  isDir _ := true

/-- The client `1` asks for `\A/..`, which is `/t/1/a/..`. -/
theorem openedName_confined_sample :
    prefixDirectory [116] <+: [47, 116, 47, 49, 47, 97, 47, 46, 46] ∧
      (∀ component ∈ List.splitOn slash [47, 116, 47, 49, 47, 97, 47, 46, 46] |>.dropLast,
      component ≠ [dot, dot]) ∧ ∀ (tree : FileTree (List UInt8)) (place : List (List UInt8)),
        tree.walk (pathSteps [47, 116, 47, 49, 47, 97, 47, 46, 46]) = some place →
        tree.kind place = some .file →
        ∃ top, tree.walk (pathSteps (prefixDirectory [116])) = some top ∧
        tree.kind top = some .directory ∧ top <+: place :=
  openedName_confined (rfl : sampleSite.requestPrefix = some [116]) (by decide)
    (by decide : sampleSite.openedName [92, 65, 47, 46, 46] = some [47, 116, 47, 49, 47,
      97, 47, 46, 46])

end CrossBreeder.Dnsmasq
