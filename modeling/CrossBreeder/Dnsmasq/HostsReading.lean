import CrossBreeder.Dnsmasq.CacheCalls

/-!
# Reading hosts files

`cache_reload` as one loop: `ReloadInput.steps` lists what is done one after the other when the host
records and the hosts files are read, and `HostsReading.step` does it (`cacheReload_eq`).
-/

namespace CrossBreeder.Dnsmasq

open Foundation

variable {env : Env}

/-! ### The reading as one loop -/

structure HostsEntry where
  name : List UInt8
  addr : List UInt8
  v6 : Bool
  config : Bool
  index : ℕ

def HostsEntry.flags (entry : HostsEntry) : Flags :=
  if entry.config then hostsFlags entry.v6 ∪ {.namep, .config} else hostsFlags entry.v6

def HostsEntry.prot (entry : HostsEntry) : Flags := if entry.v6 then {.ipv6} else {.ipv4}

def HostsEntry.Proper (entry : HostsEntry) : Prop := entry.addr.length = if entry.v6 then 16 else 4

inductive ReadStep
  | add (entry : HostsEntry)
  | openFile
  | missingFile
  | line
  | closeFile

/-- One step. Between two files `nameCount` is `total_size`. -/
def HostsReading.step (env : Env) (reading : HostsReading) : ReadStep → HostsReading
  | .add entry =>
    let ((s, rhash), added) :=
      newHostsEntry env reading.cache reading.rhash entry.name entry.addr entry.flags entry.index
    { reading with
      cache := s
      rhash := rhash
      nameCount := if added ∧ entry.config = false then reading.nameCount + 1
        else reading.nameCount }
  | .openFile => { reading with cacheSize := reading.nameCount }
  | .missingFile => { reading with nameCount := 0 }
  | .line =>
    if 1000 < reading.nameCount - reading.cacheSize then
      { reading with
        cache := rehash env reading.cache reading.nameCount, cacheSize := reading.nameCount }
    else reading
  | .closeFile => { reading with cache := rehash env reading.cache reading.nameCount }

def HostsLine.entries (env : Env) (index : ℕ) (line : HostsLine) : List HostsEntry :=
  (line.names.flatMap (HostsName.expansions env line)).map fun name ↦
    ⟨name, line.addr, line.v6, false, index⟩

def fileSteps (env : Env) (file : ℕ × Option (List HostsLine)) : List ReadStep :=
  match file.2 with
  | none => [.missingFile]
  | some lines =>
    .openFile :: (lines.flatMap fun line ↦ .line :: (line.entries env file.1).map .add) ++
      [.closeFile]

def HostRecord.entries (hr : HostRecord) (name : List UInt8) : List HostsEntry :=
  (hr.addr.toList.map fun addr ↦ ⟨name, addr, false, true, 0⟩) ++
    hr.addr6.toList.map fun addr ↦ ⟨name, addr, true, true, 0⟩

/-- The steps of `cache_reload` behind the loop that clears the table. -/
def ReloadInput.steps (env : Env) (input : ReloadInput) : List ReadStep :=
  (input.hostRecords.flatMap fun hr ↦ hr.names.flatMap fun name ↦ (hr.entries name).map .add) ++
    input.files.flatMap (fileSteps env)

/-- The state in front of the first step. -/
def startReading (env : Env) (s : Cache) : HostsReading :=
  ⟨(walkTable reloadVerdict keepRecord reloadDrop s ()).1, fun _ ↦ none, env.cachesize,
    env.cachesize⟩

theorem foldl_addName (line : HostsLine) (index : ℕ) (names : List (List UInt8))
    (reading : HostsReading) :
    (names.map fun name ↦ ReadStep.add ⟨name, line.addr, line.v6, false, index⟩).foldl
      (HostsReading.step env) reading =
      names.foldl (HostsReading.addName env line index) reading := by
  rw [List.foldl_map]
  congr 1
  funext reading name
  simp [HostsReading.step, HostsReading.addName, HostsEntry.flags]

theorem foldl_line (line : HostsLine) (index : ℕ) (reading : HostsReading) :
    (ReadStep.line :: (line.entries env index).map .add).foldl (HostsReading.step env) reading =
      readHostsLine env index reading line := by
  rw [List.foldl_cons, HostsLine.entries, List.map_map]
  exact foldl_addName line index _ _

theorem foldl_fileSteps (file : ℕ × Option (List HostsLine)) (reading : HostsReading) :
    readHostsfile env file.1 reading.nameCount file.2 reading.cache reading.rhash =
      let after := (fileSteps env file).foldl (HostsReading.step env) reading
      (after.cache, after.rhash, after.nameCount) := by
  obtain ⟨index, lines⟩ := file
  cases lines with
  | none => rfl
  | some lines =>
    have hlines : ∀ reading : HostsReading,
        (lines.flatMap fun line ↦ ReadStep.line :: (line.entries env index).map .add).foldl
          (HostsReading.step env) reading = lines.foldl (readHostsLine env index) reading := by
      intro reading
      rw [List.foldl_flatMap]
      congr 1
      funext reading line
      exact foldl_line line index reading
    simp only [fileSteps, List.cons_append, List.foldl_cons, List.foldl_append, hlines]
    rfl

theorem foldl_hostRecord (hr : HostRecord) (name : List UInt8) (reading : HostsReading) :
    (((hr.entries name).map .add).foldl (HostsReading.step env) reading) =
      { reading with
        cache := (addHostRecord env true hr.addr6 name
          (addHostRecord env false hr.addr name (reading.cache, reading.rhash))).1
        rhash := (addHostRecord env true hr.addr6 name
          (addHostRecord env false hr.addr name (reading.cache, reading.rhash))).2 } := by
  unfold HostRecord.entries
  cases hr.addr <;> cases hr.addr6 <;> simp [addHostRecord, HostsReading.step, HostsEntry.flags]

theorem foldl_hostRecords (hostRecords : List HostRecord) (reading : HostsReading) :
    (hostRecords.flatMap fun hr ↦ hr.names.flatMap fun name ↦
      (hr.entries name).map ReadStep.add).foldl (HostsReading.step env) reading =
      { reading with
        cache := (addHostRecords env hostRecords (reading.cache, reading.rhash)).1
        rhash := (addHostRecords env hostRecords (reading.cache, reading.rhash)).2 } := by
  have hnames : ∀ (hr : HostRecord) (names : List (List UInt8)) (reading : HostsReading),
      (names.flatMap fun name ↦ (hr.entries name).map ReadStep.add).foldl (HostsReading.step env)
        reading = { reading with
          cache := (names.foldl (fun state name ↦ addHostRecord env true hr.addr6 name
            (addHostRecord env false hr.addr name state)) (reading.cache, reading.rhash)).1
          rhash := (names.foldl (fun state name ↦ addHostRecord env true hr.addr6 name
            (addHostRecord env false hr.addr name state)) (reading.cache, reading.rhash)).2 } := by
    intro hr names
    induction names with
    | nil => exact fun _ ↦ rfl
    | cons name names ih =>
      intro reading
      rw [List.flatMap_cons, List.foldl_append, foldl_hostRecord, ih, List.foldl_cons]
  induction hostRecords generalizing reading with
  | nil => rfl
  | cons hr hostRecords ih =>
    rw [List.flatMap_cons, List.foldl_append, hnames, ih]
    rfl

theorem cacheReload_eq (s : Cache) (input : ReloadInput) :
    cacheReload env s input =
      ((input.steps env).foldl (HostsReading.step env) (startReading env s)).cache := by
  have hfiles : ∀ (files : List (ℕ × Option (List HostsLine))) (reading : HostsReading),
      files.foldl (fun (state : Cache × RevHash × ℕ) file ↦
        readHostsfile env file.1 state.2.2 file.2 state.1 state.2.1)
          (reading.cache, reading.rhash, reading.nameCount) =
        let after := (files.flatMap (fileSteps env)).foldl (HostsReading.step env) reading
        (after.cache, after.rhash, after.nameCount) := by
    intro files
    induction files with
    | nil => exact fun _ ↦ rfl
    | cons file files ih =>
      intro reading
      rw [List.foldl_cons, List.flatMap_cons, List.foldl_append, foldl_fileSteps, ih]
  unfold ReloadInput.steps
  rw [List.foldl_append, foldl_hostRecords]
  have hall := hfiles input.files ⟨(addHostRecords env input.hostRecords
    ((startReading env s).cache, (startReading env s).rhash)).1,
      (addHostRecords env input.hostRecords
    ((startReading env s).cache, (startReading env s).rhash)).2, env.cachesize, env.cachesize⟩
  exact congrArg Prod.fst hall

/-! ### What the steps leave alone -/

/-- Records are allocated and contents written, and no link of the lists is set. -/
structure KeepsNext (s s' : Cache) : Prop where
  next : s'.next = s.next
  live : s.live ⊆ s'.live
  serials : s.serials ≤ s'.serials

namespace KeepsNext

theorem refl (s : Cache) : KeepsNext s s := ⟨rfl, Finset.Subset.refl _, le_refl _⟩

theorem trans {first second third : Cache} (h : KeepsNext first second)
    (h' : KeepsNext second third) : KeepsNext first third :=
  ⟨h'.next.trans h.next, h.live.trans h'.live, h.serials.trans h'.serials⟩

theorem foldl {α : Type} (call : Cache → α → Cache) (hcall : ∀ s item, KeepsNext s (call s item))
    (items : List α) (s : Cache) : KeepsNext s (items.foldl call s) := by
  induction items generalizing s with
  | nil => exact refl s
  | cons item items ih => exact (hcall s item).trans (ih (call s item))

theorem renew (s : Cache) (crecp : Addr) (change : Crec → Crec) :
    KeepsNext s ((s.modify crecp change).renew crecp) := by
  rw [modify_renew]
  exact ⟨rfl, Finset.Subset.refl _, Nat.le_succ _⟩

theorem cacheHash (s : Cache) (crecp : Addr) : KeepsNext s (cacheHash env s crecp) :=
  ⟨rfl, Finset.Subset.refl _, le_refl _⟩

theorem mallocRecord (s : Cache) : KeepsNext s (mallocRecord env s).1 := by
  unfold Dnsmasq.mallocRecord
  cases env.malloc s.mallocs with
  | none => exact ⟨rfl, Finset.Subset.refl _, le_refl _⟩
  | some granted =>
    dsimp only
    split_ifs
    · exact ⟨rfl, Finset.Subset.refl _, le_refl _⟩
    · exact ⟨rfl, Finset.subset_insert _ _, le_refl _⟩

theorem addHostsCname (fuel : ℕ) (target : Addr) (s : Cache) :
    KeepsNext s (addHostsCname env fuel target s) := by
  unfold Dnsmasq.addHostsCname
  induction fuel generalizing target s with
  | zero => exact refl s
  | succ fuel ih =>
    refine foldl _ (fun s a ↦ ?_) env.cnames s
    split_ifs
    · have hmalloc : KeepsNext s (Dnsmasq.mallocRecord env s).1 := mallocRecord s
      generalize Dnsmasq.mallocRecord env s = granted at hmalloc
      obtain ⟨t, crec⟩ := granted
      cases crec with
      | none => exact hmalloc
      | some crec =>
        exact ((hmalloc.trans (renew t crec _)).trans (cacheHash _ crec)).trans (ih crec _)
    · exact refl s

theorem rehash (s : Cache) (size : ℕ) : KeepsNext s (rehash env s size) := by
  have hchain : ∀ (fuel : ℕ) (crecp : Option Addr) (s : Cache),
    KeepsNext s (rehashChain env fuel crecp s) := by
    intro fuel
    induction fuel with
    | zero => exact fun _ s ↦ refl s
    | succ fuel ih =>
      intro crecp s
      cases crecp with
      | none => exact refl s
      | some crecp => exact (cacheHash s crecp).trans (ih _ _)
  unfold Dnsmasq.rehash
  dsimp only
  split_ifs
  · exact refl s
  · have hstart : KeepsNext s (({ s with mallocs := s.mallocs + 1 } : Cache).clearTable
      (tableSize (size / 10) size 64)) :=
      ⟨rfl, Finset.Subset.refl _, le_refl _⟩
    exact hstart.trans (foldl _ (fun t i ↦ hchain _ _ t) _ _)
  · exact ⟨rfl, Finset.Subset.refl _, le_refl _⟩

end KeepsNext

end CrossBreeder.Dnsmasq
