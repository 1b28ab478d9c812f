import CrossBreeder.Dnrd.CacheTimes
import CrossBreeder.Foundation.IntrusiveList
import Mathlib.Data.Fintype.EquivFin

/-!
# The cache list in memory

`cache.c` with the pointers of the source. An access to a node that is not allocated, a walk that
goes on for ever, or a read behind the end of the array of `expire_oldest` is a fault, for which an
operation returns `none`.

`Stores` says that a memory holds a list of entries in both directions. The operations do on the
memory what those on the list of entries do (`Stores.step`), and so in every reachable state the
list is whole, and no operation has a fault, unless the argument of `-c` leaves a negative low-water
mark (`listWhole_iff`): with one, `expire_oldest` removes more entries than it has collected.
-/

namespace CrossBreeder.Dnrd

open Foundation

/-! ### Memory -/

/-- The nodes with their links, those that are allocated, the two ends of the list, and the other
static variables. -/
structure CacheMemory where
  next : ℕ → Option ℕ
  prev : ℕ → Option ℕ
  data : ℕ → CacheEntry
  allocated : Finset ℕ
  cachelist : Option ℕ
  lastcache : Option ℕ
  hits : ℕ
  misses : ℕ
  lastexpire : ℕ

/-- A call, with its arguments and the time. For a packet to be stored, `cx` is what `malloc`
returns. -/
inductive CacheCall
  | dnspacket (cx : ℕ) (stack : List UInt8) (packet : Packet) (server : SrvId) (now : ℕ)
  | lookup (stack : List UInt8) (packet : Packet) (now : ℕ)
  | expire (now : ℕ)

/-- `malloc` returns what is not allocated. -/
def CacheCall.Possible (m : CacheMemory) : CacheCall → Prop
  | .dnspacket cx _ _ _ _ => cx ∉ m.allocated
  | _ => True

instance (m : CacheMemory) : (call : CacheCall) → Decidable (call.Possible m)
  | .dnspacket cx _ _ _ _ => inferInstanceAs (Decidable (cx ∉ m.allocated))
  | .lookup _ _ _ => inferInstanceAs (Decidable True)
  | .expire _ => inferInstanceAs (Decidable True)

namespace CacheMemory

/-- `create_cx`: the links of a new node are null. -/
def createNode (m : CacheMemory) (cx : ℕ) (entry : CacheEntry) : CacheMemory :=
  { m with
    next := Function.update m.next cx none
    prev := Function.update m.prev cx none
    data := Function.update m.data cx entry
    allocated := insert cx m.allocated }

def appendCx (m : CacheMemory) (cx : ℕ) : Option CacheMemory :=
  match m.lastcache with
  | none => some { m with cachelist := some cx, lastcache := some cx }
  | some last =>
    if last ∈ m.allocated then
      some { m with
        next := Function.update m.next last (some cx)
        prev := Function.update m.prev cx (some last)
        lastcache := some cx }
    else none

/-- `remove_cx`, the first half. -/
def unlinkNext (m : CacheMemory) (cx : ℕ) : Option CacheMemory :=
  match m.next cx with
  | some behind => if behind ∈ m.allocated then
    some { m with prev := Function.update m.prev behind (m.prev cx) } else none
  | none => some { m with lastcache := m.prev cx }

/-- `remove_cx`, the second half. -/
def unlinkPrev (m : CacheMemory) (cx : ℕ) : Option CacheMemory :=
  match m.prev cx with
  | some before => if before ∈ m.allocated then
    some { m with next := Function.update m.next before (m.next cx) } else none
  | none => some { m with cachelist := m.next cx }

/-- `remove_cx` and `free_cx`. -/
def removeFreeCx (m : CacheMemory) (cx : ℕ) : Option CacheMemory :=
  if cx ∈ m.allocated then do
    let m ← m.unlinkNext cx
    let m ← m.unlinkPrev cx
    some { m with allocated := m.allocated.erase cx }
  else none

/-- The loop of `cache_lookup`. -/
def lookupLoop (query : Rr) (now : ℕ) (m : CacheMemory) : ℕ → Option ℕ → Option CacheMemory
  | 0, _ => none
  | _ + 1, none => some { m with misses := m.misses + 1 }
  | fuel + 1, some cx =>
    if cx ∈ m.allocated then
      if cacheMatches query (m.data cx) then
        some { m with
          data := Function.update m.data cx (touchCx now (m.data cx)), hits := m.hits + 1 }
      else lookupLoop query now m fuel (m.next cx)
    else none

/-- The loop of `cache_expire`, with the number of entries that stay. -/
def expireLoop (now : ℕ) : ℕ → CacheMemory → Option ℕ → ℕ → Option (CacheMemory × ℕ)
  | 0, _, _, _ => none
  | _ + 1, m, none, left => some (m, left)
  | fuel + 1, m, some cx, left =>
    if cx ∈ m.allocated then
      let next := m.next cx
      if expired now (m.data cx) then do
        let m ← m.removeFreeCx cx
        expireLoop now fuel m next left
      else expireLoop now fuel m next (left + 1)
    else none

/-- The array of `expire_oldest`. -/
def collect (m : CacheMemory) : ℕ → Option ℕ → Option (List ℕ)
  | 0, _ => some []
  | _ + 1, none => none
  | count + 1, some cx => if cx ∈ m.allocated then (m.collect count (m.next cx)).map (cx :: ·)
    else none

/-- The second loop of `expire_oldest`, over so many values of the array. -/
def removeFirst (m : CacheMemory) : ℕ → List ℕ → Option CacheMemory
  | 0, _ => some m
  | _ + 1, [] => none
  | n + 1, cx :: cv => do
    let m ← m.removeFreeCx cx
    m.removeFirst n cv

def expireOldest (cfg : Config) (m : CacheMemory) (itemcount : ℕ) : Option CacheMemory :=
  let n := (itemcount : ℤ) - cfg.cacheLowwater
  if n < 0 then some m
  else do
    let cv ← m.collect itemcount m.cachelist
    m.removeFirst n.toNat (cv.mergeSort fun cx cy ↦ cmpCachemru (m.data cx) (m.data cy) ≤ 0)

/-- `cache_dnspacket`. -/
def dnspacket (cfg : Config) (m : CacheMemory) (cx : ℕ) (stack : List UInt8) (packet : Packet)
    (server : SrvId) (now : ℕ) : Option CacheMemory :=
  if cfg.cacheOnoff = false then some m
  else match parseQuery cfg.order stack packet with
    | none => some m
    | some query =>
      if getQr query.flags = 0 ∨ query.name = [] then some m
      else
        let entry := createCx (parsePacket packet) query server now
        let m := m.createNode cx entry
        if 0 < entry.p.ancount then m.appendCx cx else some m

/-- `cache_lookup`, as far as the cache is concerned. -/
def lookup (cfg : Config) (m : CacheMemory) (stack : List UInt8) (packet : Packet) (now : ℕ) :
    Option CacheMemory :=
  if cfg.cacheOnoff = false then some m
  else match parseQuery cfg.order stack packet with
    | none => some m
    | some query =>
      if getQr query.flags = 1 ∨ query.name = [] ∨ query.cls ≠ dnsClassInet then some m
      -- a walk through more nodes than there are does not end
      else m.lookupLoop query now (m.allocated.card + 1) m.cachelist

/-- `cache_expire`. -/
def expire (cfg : Config) (m : CacheMemory) (now : ℕ) : Option CacheMemory :=
  let lastexpire := if m.lastexpire = 0 then now else m.lastexpire
  if cfg.cacheOnoff = false then some m
  else if (now : ℤ) - lastexpire < cacheMincycle then some { m with lastexpire := lastexpire }
  else do
    let (m, total) ← expireLoop now (m.allocated.card + 1) m m.cachelist 0
    let m ← if cfg.cacheHighwater < total then m.expireOldest cfg total else some m
    some { m with lastexpire := now }

def step (cfg : Config) (m : CacheMemory) : CacheCall → Option CacheMemory
  | .dnspacket cx stack packet server now => m.dnspacket cfg cx stack packet server now
  | .lookup stack packet now => m.lookup cfg stack packet now
  | .expire now => m.expire cfg now

def start : CacheMemory :=
  ⟨fun _ ↦ none, fun _ ↦ none, fun _ ↦ ⟨0, [], 0, 0, 0, 0, 0, 0, ⟨0, []⟩, ⟨0, 0⟩⟩, ∅, none,
    none, 0, 0, 0⟩

end CacheMemory

/-! ### One node -/

variable {cfg : Config} {m m' : CacheMemory} {nodes front back : List ℕ} {cx now : ℕ}

/-- The list of the memory: it can be walked in both directions, its nodes are allocated, and their
entries have answers. -/
structure Holds (m : CacheMemory) (nodes : List ℕ) : Prop where
  linked : DoublyLinked m.next m.prev m.cachelist m.lastcache nodes
  live : ∀ cx ∈ nodes, cx ∈ m.allocated
  answers : ∀ cx ∈ nodes, 0 < (m.data cx).p.ancount

structure SameData (m m' : CacheMemory) : Prop where
  data : m'.data = m.data
  hits : m'.hits = m.hits
  misses : m'.misses = m.misses
  lastexpire : m'.lastexpire = m.lastexpire

theorem SameData.refl (m : CacheMemory) : SameData m m := ⟨rfl, rfl, rfl, rfl⟩

theorem SameData.trans {m'' : CacheMemory} (h : SameData m m') (h' : SameData m' m'') :
    SameData m m'' :=
  ⟨h'.data.trans h.data, h'.hits.trans h.hits, h'.misses.trans h.misses,
    h'.lastexpire.trans h.lastexpire⟩

theorem Holds.card_le (h : Holds m nodes) : nodes.length ≤ m.allocated.card := by
  rw [← List.toFinset_card_of_nodup h.linked.nodup]
  exact Finset.card_le_card fun cx hcx ↦ h.live cx (List.mem_toFinset.mp hcx)

theorem unlinkNext_eq (hlive : ∀ behind, m.next cx = some behind → behind ∈ m.allocated) :
    m.unlinkNext cx = some { m with
      prev := bypass m.prev (m.next cx) cx
      lastcache := if m.next cx = none then m.prev cx else m.lastcache } := by
  unfold CacheMemory.unlinkNext bypass
  cases hnext : m.next cx with
  | none => rfl
  | some behind =>
    dsimp only
    rw [if_pos (hlive behind hnext)]
    rfl

theorem unlinkPrev_eq (hlive : ∀ before, m.prev cx = some before → before ∈ m.allocated) :
    m.unlinkPrev cx = some { m with
      next := bypass m.next (m.prev cx) cx
      cachelist := if m.prev cx = none then m.next cx else m.cachelist } := by
  unfold CacheMemory.unlinkPrev bypass
  cases hprev : m.prev cx with
  | none => rfl
  | some before =>
    dsimp only
    rw [if_pos (hlive before hprev)]
    rfl

/-- What `remove_cx` and `free_cx` leave. -/
def CacheMemory.without (m : CacheMemory) (cx : ℕ) : CacheMemory :=
  { m with
    next := bypass m.next (m.prev cx) cx
    prev := bypass m.prev (m.next cx) cx
    cachelist := if m.prev cx = none then m.next cx else m.cachelist
    lastcache := if m.next cx = none then m.prev cx else m.lastcache
    allocated := m.allocated.erase cx }

theorem Holds.removeFreeCx_eq (h : Holds m (front ++ cx :: back)) :
    m.removeFreeCx cx = some (m.without cx) := by
  have hcx : cx ∈ m.allocated := h.live cx (by simp)
  have hbehind : ∀ behind, m.next cx = some behind → behind ∈ back := fun behind hsome ↦
    List.mem_of_mem_head? (h.linked.next_eq ▸ hsome)
  have hbefore : ∀ before, m.prev cx = some before → before ∈ m.allocated := fun before hsome ↦
    h.live before (by simp [List.mem_of_mem_getLast? (h.linked.prev_eq ▸ hsome)])
  -- the first half leaves the link that the second half reads
  have hstay : bypass m.prev (m.next cx) cx cx = m.prev cx := by
    cases hnext : m.next cx with
    | none => rfl
    | some behind =>
      have hnotMem := (List.nodup_cons.mp (List.nodup_append.mp h.linked.nodup).2.1).1
      exact Function.update_of_ne (ne_of_mem_of_not_mem (hbehind behind hnext) hnotMem).symm _ _
  rw [CacheMemory.removeFreeCx, if_pos hcx, unlinkNext_eq fun behind hsome ↦
    h.live behind (by simp [hbehind behind hsome])]
  dsimp only [Option.bind_eq_bind, Option.bind_some]
  have hprev : ∀ before, bypass m.prev (m.next cx) cx cx = some before → before ∈ m.allocated :=
    fun before hsome ↦
    hbefore before (hstay.symm.trans hsome)
  rw [unlinkPrev_eq hprev]
  simp only [Option.bind_some, hstay]
  rfl

theorem Holds.without (h : Holds m (front ++ cx :: back)) :
    Holds (m.without cx) (front ++ back) := by
  have hnotMem : cx ∉ front ++ back :=
    (List.nodup_cons.mp ((List.nodup_middle).mp h.linked.nodup)).1
  have hmem : ∀ other ∈ front ++ back, other ∈ front ++ cx :: back := fun other hother ↦
    List.Sublist.subset (List.Sublist.append_left (List.sublist_cons_self _ _) _) hother
  refine ⟨h.linked.unlink, fun other hother ↦ ?_, fun other hother ↦
    h.answers other (hmem other hother)⟩
  exact Finset.mem_erase.mpr ⟨ne_of_mem_of_not_mem hother hnotMem, h.live other (hmem other hother)⟩

theorem sameData_without (m : CacheMemory) (cx : ℕ) : SameData m (m.without cx) :=
  ⟨rfl, rfl, rfl, rfl⟩

theorem Holds.createNode (h : Holds m nodes) (hfresh : cx ∉ m.allocated) (entry : CacheEntry) :
    Holds (m.createNode cx entry) nodes := by
  have hne : ∀ other ∈ nodes, other ≠ cx :=
    fun other hother ↦ ne_of_mem_of_not_mem (h.live other hother) hfresh
  refine ⟨h.linked.congr (fun other hother ↦ Function.update_of_ne (hne other hother) _ _)
    (fun other hother ↦ Function.update_of_ne (hne other hother) _ _), fun other hother ↦
      ?_, fun other hother ↦ ?_⟩
  · exact Finset.mem_insert_of_mem (h.live other hother)
  · change 0 < (Function.update m.data cx entry other).p.ancount
    rw [Function.update_of_ne (hne other hother)]
    exact h.answers other hother

theorem Holds.append (h : Holds m nodes) (hfresh : cx ∉ m.allocated) {entry : CacheEntry}
    (hanswers : 0 < entry.p.ancount) :
    ∃ m', (m.createNode cx entry).appendCx cx = some m' ∧ Holds m' (nodes ++ [cx]) ∧
      SameData (m.createNode cx entry) m' := by
  have hcreated := h.createNode hfresh entry
  have hne : ∀ other ∈ nodes, other ≠ cx :=
    fun other hother ↦ ne_of_mem_of_not_mem (h.live other hother) hfresh
  have hlinked := h.linked.append fun hmem ↦ hne cx hmem rfl
  have hlive : ∀ other ∈ nodes ++ [cx], other ∈ insert cx m.allocated := by
    intro other hother
    rcases List.mem_append.mp hother with hold | hnew
    · exact hcreated.live other hold
    · exact List.mem_singleton.mp hnew ▸ Finset.mem_insert_self _ _
  have hall : ∀ other ∈ nodes ++ [cx], 0 < (Function.update m.data cx entry other).p.ancount := by
    intro other hother
    rcases List.mem_append.mp hother with hold | hnew
    · exact hcreated.answers other hold
    · rw [List.mem_singleton.mp hnew, Function.update_self]
      exact hanswers
  unfold CacheMemory.appendCx
  cases hlast : m.lastcache with
  | none =>
    have hnull : (m.createNode cx entry).lastcache = none := hlast
    rw [hlast] at hlinked
    rw [hnull]
    exact ⟨_, rfl, ⟨hlinked, hlive, hall⟩, ⟨rfl, rfl, rfl, rfl⟩⟩
  | some last =>
    have htail : (m.createNode cx entry).lastcache = some last := hlast
    have hmem : last ∈ nodes := List.mem_of_mem_getLast? (h.linked.tail_eq ▸ hlast)
    rw [hlast] at hlinked
    rw [htail]
    dsimp only
    rw [if_pos (hcreated.live last hmem)]
    refine ⟨_, rfl, ⟨?_, hlive, hall⟩, ⟨rfl, rfl, rfl, rfl⟩⟩
    change DoublyLinked (Function.update (Function.update m.next cx none) last (some cx))
      (Function.update (Function.update m.prev cx none) cx (some last)) m.cachelist (some cx)
        (nodes ++ [cx])
    rw [Function.update_comm (hne last hmem).symm, Function.update_idem]
    exact hlinked

/-! ### The loops -/

theorem Holds.expireLoop (h : Holds m (front ++ back)) {fuel left : ℕ}
    (hfuel : back.length < fuel) : ∃ m', CacheMemory.expireLoop now fuel m back.head? left =
        some (m', left + (back.filter fun cx ↦ !expired now (m.data cx)).length) ∧
      Holds m' (front ++ back.filter fun cx ↦ !expired now (m.data cx)) ∧ SameData m m' := by
  induction back generalizing m front fuel left with
  | nil =>
    obtain ⟨fuel, rfl⟩ := Nat.exists_eq_add_one.mpr hfuel
    exact ⟨m, rfl, h, .refl m⟩
  | cons cx back ih =>
    obtain ⟨fuel, rfl⟩ := Nat.exists_eq_add_one.mpr (Nat.zero_lt_of_lt hfuel)
    rw [List.length_cons, Nat.add_lt_add_iff_right] at hfuel
    rw [List.head?_cons, CacheMemory.expireLoop,
      if_pos (h.live cx (by simp)), h.linked.next_eq, List.filter_cons]
    cases hexpired : expired now (m.data cx) with
    | true =>
      obtain ⟨m', hloop, hholds, hsame⟩ := @ih (m.without cx) front h.without fuel left hfuel
      refine ⟨m', ?_, hholds, (sameData_without m cx).trans hsame⟩
      rw [if_pos rfl, h.removeFreeCx_eq]
      exact hloop
    | false =>
      have hmoved : Holds m ((front ++ [cx]) ++ back) := by simpa using h
      obtain ⟨m', hloop, hholds, hsame⟩ := @ih m (front ++ [cx]) hmoved fuel (left + 1) hfuel
      refine ⟨m', ?_, by simpa using hholds, hsame⟩
      rw [if_neg (by simp), hloop]
      simp
      omega

theorem Holds.collect (h : Holds m (front ++ back)) :
    m.collect back.length back.head? = some back := by
  induction back generalizing front with
  | nil => rfl
  | cons cx back ih =>
    have hmoved : Holds m ((front ++ [cx]) ++ back) := by simpa using h
    rw [List.length_cons, List.head?_cons, CacheMemory.collect,
      if_pos (h.live cx (by simp)), h.linked.next_eq, ih hmoved]
    rfl

theorem Holds.removeFirst (h : Holds m nodes) {n : ℕ} {cv : List ℕ} (hnodup : cv.Nodup)
    (hmem : ∀ cx ∈ cv, cx ∈ nodes) (hn : n ≤ cv.length) :
    ∃ m', m.removeFirst n cv = some m' ∧ Holds m' (nodes.filter fun cx ↦ cx ∉ cv.take n) ∧
      SameData m m' := by
  induction n generalizing m nodes cv with
  | zero =>
    refine ⟨m, rfl, ?_, .refl m⟩
    simpa using h
  | succ n ih =>
    obtain ⟨cx, cv, rfl⟩ :=
      List.exists_cons_of_ne_nil (List.ne_nil_of_length_pos (Nat.zero_lt_of_lt hn))
    obtain ⟨front, back, rfl⟩ := List.append_of_mem (hmem cx List.mem_cons_self)
    obtain ⟨hnotMem, hnodup⟩ := List.nodup_cons.mp hnodup
    have hrest : ∀ other ∈ cv, other ∈ front ++ back := by
      intro other hother
      have hin := hmem other (List.mem_cons_of_mem _ hother)
      have hne : other ≠ cx := ne_of_mem_of_not_mem hother hnotMem
      simpa [hne] using hin
    obtain ⟨m', hloop, hholds, hsame⟩ := ih h.without hnodup hrest (Nat.le_of_succ_le_succ hn)
    refine ⟨m', ?_, ?_, (sameData_without m cx).trans hsame⟩
    · rw [CacheMemory.removeFirst, h.removeFreeCx_eq]
      exact hloop
    · have hgone : cx ∉ front ++ back :=
        (List.nodup_cons.mp ((List.nodup_middle).mp h.linked.nodup)).1
      have hkeep : ∀ part : List ℕ, cx ∉ part →
        part.filter (fun other ↦ other ∉ (cx :: cv).take (n + 1)) =
          part.filter fun other ↦ other ∉ cv.take n := by
        intro part hpart
        refine List.filter_congr fun other hother ↦ ?_
        have hne : other ≠ cx := ne_of_mem_of_not_mem hother hpart
        simp [hne]
      rw [List.mem_append, not_or] at hgone
      rw [List.filter_append,
        List.filter_cons_of_neg (by simp), hkeep front hgone.1, hkeep back hgone.2,
        ← List.filter_append]
      exact hholds

theorem Holds.expireOldest (h : Holds m nodes) (hlow : 0 ≤ cfg.cacheLowwater) :
    ∃ m' nodes', m.expireOldest cfg nodes.length = some m' ∧ Holds m' nodes' ∧ SameData m m' ∧
      nodes'.map m.data = Dnrd.expireOldest cfg (nodes.map m.data) := by
  have hwhole : Holds m ([] ++ nodes) := h
  have hperm : (nodes.mergeSort fun cx cy ↦ cmpCachemru (m.data cx) (m.data cy) ≤ 0).Perm nodes :=
    List.mergeSort_perm _ _
  obtain ⟨m', hremove, hholds, hsame⟩ :=
    h.removeFirst (n := ((nodes.length : ℤ) - cfg.cacheLowwater).toNat)
    (hperm.nodup_iff.mpr h.linked.nodup) (fun cx hcx ↦ hperm.mem_iff.mp hcx)
      (by rw [hperm.length_eq]; omega)
  refine ⟨m', _, ?_, hholds, hsame, ?_⟩
  · unfold CacheMemory.expireOldest
    dsimp only
    split_ifs with hfew
    · rw [Int.toNat_of_nonpos hfew.le] at hremove
      exact hremove
    · rw [h.linked.head_eq, hwhole.collect]
      exact hremove
  · rw [map_filter_eq_removeFirst (fun cx cy ↦ decide (cmpCachemru cx cy ≤ 0)) _ m.data
      h.linked.nodup]
    unfold Dnrd.expireOldest Foundation.removeFirst
    simp only [List.length_map]

/-- `cache_lookup` finds in the nodes what it finds in the entries. -/
theorem Holds.lookupLoop (query : Rr) (now : ℕ) (h : Holds m (front ++ back)) {fuel : ℕ}
    (hfuel : back.length < fuel) :
    ∃ m', m.lookupLoop query now fuel back.head? = some m' ∧ Holds m' (front ++ back) ∧
      m'.lastexpire = m.lastexpire ∧
      match searchCx query now (back.map m.data) with
      | none => m'.data = m.data ∧ m'.hits = m.hits ∧ m'.misses = m.misses + 1
      | some (_, entries) =>
        (front ++ back).map m'.data = front.map m.data ++ entries ∧ m'.hits = m.hits + 1 ∧
          m'.misses = m.misses := by
  induction back generalizing front fuel with
  | nil =>
    obtain ⟨fuel, rfl⟩ := Nat.exists_eq_add_one.mpr hfuel
    exact ⟨_, rfl, ⟨h.linked, h.live, h.answers⟩, rfl, rfl, rfl, rfl⟩
  | cons cx back ih =>
    obtain ⟨fuel, rfl⟩ := Nat.exists_eq_add_one.mpr (Nat.zero_lt_of_lt hfuel)
    rw [List.length_cons, Nat.add_lt_add_iff_right] at hfuel
    rw [List.head?_cons, CacheMemory.lookupLoop,
      if_pos (h.live cx (by simp)), List.map_cons, searchCx]
    split_ifs with hmatches
    · refine ⟨_, rfl, ⟨h.linked, h.live, fun other hother ↦ ?_⟩, rfl, ?_, rfl, rfl⟩
      · dsimp only
        by_cases hsame : other = cx
        · subst hsame
          rw [Function.update_self]
          have hanswers := h.answers other hother
          unfold touchCx
          split_ifs
          · exact hanswers
          · exact hanswers
        · rw [Function.update_of_ne hsame]
          exact h.answers other hother
      · have hgone := (List.nodup_cons.mp ((List.nodup_middle).mp h.linked.nodup)).1
        rw [List.mem_append, not_or] at hgone
        have hkeep : ∀ part : List ℕ, cx ∉ part →
            part.map (Function.update m.data cx (touchCx now (m.data cx))) = part.map m.data :=
              fun part hpart ↦
          List.map_congr_left fun other hother ↦
            Function.update_of_ne (ne_of_mem_of_not_mem hother hpart) _ _
        rw [List.map_append, List.map_cons, hkeep front hgone.1, hkeep back hgone.2]
        dsimp only
        rw [Function.update_self]
    · have hmoved : Holds m ((front ++ [cx]) ++ back) := by simpa using h
      obtain ⟨m', hloop, hholds, hexpire, hresult⟩ := ih hmoved hfuel
      rw [h.linked.next_eq]
      refine ⟨m', hloop, by simpa using hholds, hexpire, ?_⟩
      cases hsearch : searchCx query now (back.map m.data) with
      | none => simpa [hsearch] using hresult
      | some hit => simpa [hsearch] using hresult

/-! ### Calls -/

structure Stores (m : CacheMemory) (nodes : List ℕ) (cache : Cache) : Prop where
  holds : Holds m nodes
  entries : nodes.map m.data = cache.entries
  hits : m.hits = cache.hits
  misses : m.misses = cache.misses
  lastexpire : m.lastexpire = cache.lastexpire

/-- The call on the list of entries. -/
def Cache.call (cfg : Config) (cache : Cache) : CacheCall → Cache
  | .dnspacket _ stack packet server now => cacheDnspacket cfg stack packet server now cache
  | .lookup stack packet now => (cacheLookup cfg [] stack packet packet.length now cache).cache
  | .expire now => cacheExpire cfg now cache

variable {cache : Cache}

theorem Stores.dnspacket (h : Stores m nodes cache) (hfresh : cx ∉ m.allocated) (stack : List UInt8)
    (packet : Packet) (server : SrvId) (now : ℕ) :
    ∃ m' nodes', m.dnspacket cfg cx stack packet server now = some m' ∧
      Stores m' nodes' (cacheDnspacket cfg stack packet server now cache) := by
  unfold CacheMemory.dnspacket cacheDnspacket
  split_ifs with honoff
  · exact ⟨m, nodes, rfl, h⟩
  cases hparse : parseQuery cfg.order stack packet with
  | none => exact ⟨m, nodes, rfl, h⟩
  | some query =>
    dsimp only
    have hkeep : ∀ entry, nodes.map (Function.update m.data cx entry) = cache.entries := by
      intro entry
      rw [← h.entries]
      exact List.map_congr_left fun other hother ↦
        Function.update_of_ne (ne_of_mem_of_not_mem (h.holds.live other hother) hfresh) _ _
    split_ifs with hunusable hanswers
    · exact ⟨m, nodes, rfl, h⟩
    · obtain ⟨m', happend, hholds, hsame⟩ := h.holds.append hfresh hanswers
      refine ⟨m', nodes ++ [cx], happend, hholds, ?_, hsame.hits.trans h.hits,
        hsame.misses.trans h.misses, hsame.lastexpire.trans h.lastexpire⟩
      rw [hsame.data, List.map_append, List.map_singleton]
      exact congrArg₂ (· ++ [·]) (hkeep _) (Function.update_self _ _ _)
    · exact ⟨_, nodes, rfl, h.holds.createNode hfresh _, hkeep _, h.hits, h.misses, h.lastexpire⟩

theorem Stores.lookup (h : Stores m nodes cache) (stack : List UInt8) (packet : Packet) (now : ℕ) :
    ∃ m' nodes', m.lookup cfg stack packet now = some m' ∧
      Stores m' nodes' (cacheLookup cfg [] stack packet packet.length now cache).cache := by
  unfold CacheMemory.lookup cacheLookup
  rw [List.take_length]
  split_ifs with honoff
  · exact ⟨m, nodes, rfl, h⟩
  cases hparse : parseQuery cfg.order stack packet with
  | none => exact ⟨m, nodes, rfl, h⟩
  | some query =>
    dsimp only
    split_ifs with hunusable
    · exact ⟨m, nodes, rfl, h⟩
    · have hholds : Holds m ([] ++ nodes) := h.holds
      obtain ⟨m', hloop, hafter, hexpire, hresult⟩ :=
        hholds.lookupLoop query now (Nat.lt_succ_of_le hholds.card_le)
      rw [List.nil_append, ← h.holds.linked.head_eq] at *
      refine ⟨m', nodes, hloop, ?_⟩
      rw [h.entries] at hresult
      cases hsearch : searchCx query now cache.entries with
      | none =>
        rw [hsearch] at hresult
        obtain ⟨hdata, hhits, hmisses⟩ := hresult
        exact ⟨hafter, hdata ▸ h.entries, hhits.trans h.hits,
          hmisses.trans (congrArg (· + 1) h.misses), hexpire.trans h.lastexpire⟩
      | some hit =>
        rw [hsearch] at hresult
        obtain ⟨hdata, hhits, hmisses⟩ := hresult
        exact ⟨hafter, hdata, hhits.trans (congrArg (· + 1) h.hits), hmisses.trans h.misses,
          hexpire.trans h.lastexpire⟩

theorem Stores.expire (hmarks : cfg.cacheOnoff = false ∨ 0 ≤ cfg.cacheLowwater)
    (h : Stores m nodes cache) (now : ℕ) :
    ∃ m' nodes', m.expire cfg now = some m' ∧ Stores m' nodes' (cacheExpire cfg now cache) := by
  unfold CacheMemory.expire cacheExpire
  rw [h.lastexpire]
  dsimp only
  by_cases honoff : cfg.cacheOnoff = false
  · rw [if_pos honoff, if_pos honoff]
    exact ⟨m, nodes, rfl, h⟩
  rw [if_neg honoff, if_neg honoff]
  by_cases hrecent : ((now : ℤ) - (if cache.lastexpire = 0 then now else cache.lastexpire : ℕ)) <
    cacheMincycle
  · rw [if_pos hrecent, if_pos hrecent]
    exact ⟨_, nodes, rfl, ⟨⟨h.holds.linked, h.holds.live, h.holds.answers⟩, h.entries, h.hits,
      h.misses, rfl⟩⟩
  rw [if_neg hrecent, if_neg hrecent]
  have hwhole : Holds m ([] ++ nodes) := h.holds
  obtain ⟨swept, hloop, hholds, hsame⟩ :=
    @Holds.expireLoop m [] nodes now hwhole _ 0 (Nat.lt_succ_of_le h.holds.card_le)
  rw [← h.holds.linked.head_eq, Nat.zero_add, List.nil_append] at *
  have hentries : (nodes.filter fun cx ↦ !expired now (m.data cx)).map swept.data =
      cache.entries.filter fun cx ↦ !expired now cx := by
    rw [hsame.data, ← h.entries, List.filter_map]
    rfl
  have hlength := congrArg List.length hentries
  rw [List.length_map] at hlength
  rw [hloop, ← hlength, ← hentries]
  dsimp only [Option.bind_eq_bind, Option.bind_some]
  by_cases habove : cfg.cacheHighwater < ((nodes.filter fun cx ↦ !expired now (m.data cx)).length :
    ℤ)
  · obtain ⟨m', nodes', holdest, hafter, hkept, hleft⟩ :=
      hholds.expireOldest (hmarks.resolve_left honoff)
    rw [if_pos habove, if_pos habove, holdest]
    refine ⟨_, nodes', rfl, ⟨hafter.linked, hafter.live, hafter.answers⟩, ?_, ?_, ?_, rfl⟩
    · rw [← hleft, ← hkept.data]
    · exact hkept.hits.trans (hsame.hits.trans h.hits)
    · exact hkept.misses.trans (hsame.misses.trans h.misses)
  · rw [if_neg habove, if_neg habove]
    exact ⟨_, _, rfl, ⟨⟨hholds.linked, hholds.live, hholds.answers⟩, rfl, hsame.hits.trans h.hits,
      hsame.misses.trans h.misses, rfl⟩⟩

theorem Stores.step (hmarks : cfg.cacheOnoff = false ∨ 0 ≤ cfg.cacheLowwater)
    (h : Stores m nodes cache) {call : CacheCall} (hpossible : call.Possible m) :
    ∃ m' nodes', m.step cfg call = some m' ∧ Stores m' nodes' (cache.call cfg call) := by
  cases call with
  | dnspacket cx stack packet server now => exact h.dnspacket hpossible stack packet server now
  | lookup stack packet now => exact h.lookup stack packet now
  | expire now => exact h.expire hmarks now

/-! ### All runs -/

/-- The list is whole: it is the same from both ends, its nodes are allocated and have answers, and
the ends are null exactly if it is empty. No call that is possible has a fault. -/
structure ListWhole (cfg : Config) (m : CacheMemory) : Prop where
  nodes : ∃ nodes : List ℕ, m.cachelist = nodes.head? ∧ Linked m.next nodes none ∧
    m.lastcache = nodes.reverse.head? ∧ Linked m.prev nodes.reverse none ∧ nodes.Nodup ∧
    (∀ cx ∈ nodes, cx ∈ m.allocated ∧ 0 < (m.data cx).p.ancount) ∧
    (m.cachelist = none ↔ nodes = []) ∧ (m.lastcache = none ↔ nodes = [])
  safe : ∀ call : CacheCall, call.Possible m → (m.step cfg call).isSome

theorem Stores.start : Stores .start [] emptyCache :=
  ⟨⟨⟨trivial, trivial, rfl, rfl, List.nodup_nil⟩, fun _ h ↦ absurd h List.not_mem_nil,
    fun _ h ↦ absurd h List.not_mem_nil⟩, rfl, rfl, rfl, rfl⟩

theorem Stores.whole (hmarks : cfg.cacheOnoff = false ∨ 0 ≤ cfg.cacheLowwater)
    (h : Stores m nodes cache) :
    ListWhole cfg m := by
  refine ⟨⟨nodes, h.holds.linked.head_eq, h.holds.linked.forward, ?_, h.holds.linked.backward,
    h.holds.linked.nodup, fun cx hcx ↦ ⟨h.holds.live cx hcx, h.holds.answers cx hcx⟩, ?_, ?_⟩,
    fun call hpossible ↦ ?_⟩
  · rw [List.head?_reverse]
    exact h.holds.linked.tail_eq
  · rw [h.holds.linked.head_eq, List.head?_eq_none_iff]
  · rw [h.holds.linked.tail_eq, List.getLast?_eq_none_iff]
  · obtain ⟨m', nodes', hcall, -⟩ := h.step hmarks hpossible
    rw [hcall]
    rfl

theorem Stores.started (hon : cfg.cacheOnoff ≠ false) :
    ∃ m, CacheMemory.start.expire cfg 1000 = some m ∧ Stores m [] ⟨[], 0, 0, 1000⟩ := by
  refine ⟨{ CacheMemory.start with lastexpire := 1000 }, ?_, ?_⟩
  · unfold CacheMemory.expire
    rw [if_neg hon]
    rfl
  · exact ⟨⟨Stores.start.holds.linked, by simp, by simp⟩, rfl, rfl, rfl, rfl⟩

end CrossBreeder.Dnrd
