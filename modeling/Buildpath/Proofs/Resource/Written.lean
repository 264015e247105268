import Buildpath.Library.Chained
import Buildpath.ProjectFile
import Buildpath.Proofs.Results

/-!
# Written files

A file that was written can be read, and written again. Writing keeps the directories that there are,
so every path text that led somewhere still leads there.
-/

namespace Buildpath

/-! ### File trees -/

namespace FileTree

variable {t t' t'' : FileTree} {place next : Place} {names : List String} {text : String}

/-- The directories of a tree are directories of another one, with the same current directory. -/
structure Extends (t t' : FileTree) : Prop where
  current : t'.current = t.current
  directories : ∀ place stamp, t.node? place = some (.directory stamp) →
    ∃ stamp', t'.node? place = some (.directory stamp')

theorem Extends.refl (t : FileTree) : Extends t t := ⟨rfl, fun _ stamp h ↦ ⟨stamp, h⟩⟩

theorem Extends.trans (h : Extends t t') (h' : Extends t' t'') : Extends t t'' := by
  refine ⟨h'.current.trans h.current, fun place stamp hp ↦ ?_⟩
  obtain ⟨stamp', hp'⟩ := h.directories place stamp hp
  exact h'.directories place stamp' hp'

/-- Names that lead somewhere still do. -/
theorem Extends.follow (h : Extends t t') (hf : t.follow place names = .ok next) :
    t'.follow place names = .ok next := by
  induction names generalizing place with
  | nil => exact hf
  | cons name names ih =>
    rw [FileTree.follow] at hf ⊢
    split at hf
    · cases hf
    · cases hf
    · next stamp hp =>
      obtain ⟨stamp', hp'⟩ := h.directories place stamp hp
      rw [hp']
      dsimp only
      split at hf
      · cases hf
      · next hlength =>
        rw [if_neg hlength]
        exact ih hf

theorem Extends.start (h : Extends t t') : t'.start text = t.start text := by
  rw [FileTree.start, FileTree.start, h.current]

/-- A path text that leads somewhere still does. -/
theorem Extends.locate (h : Extends t t') (hl : t.locate text = .ok place) :
    t'.locate text = .ok place := by
  rw [FileTree.locate] at hl ⊢
  rw [h.start]
  obtain ⟨first, hfirst, hl⟩ := bind_eq_ok.mp hl
  rw [hfirst, bind_ok]
  split at hl
  · cases hl
  · next hempty =>
    rw [if_neg hempty]
    exact h.follow hl

theorem Extends.isDirectory (h : Extends t t') (hd : t.isDirectory text) : t'.isDirectory text := by
  unfold FileTree.isDirectory FileTree.lookup at hd ⊢
  cases hl : t.locate text with
  | error cause => rw [hl] at hd; cases hd
  | ok place =>
    rw [hl, bind_ok] at hd
    rw [h.locate hl, bind_ok]
    cases hn : t.node? place with
    | none => rw [hn] at hd; cases hd
    | some node =>
      cases node with
      | file contents stamp => rw [hn] at hd; cases hd
      | directory stamp =>
        obtain ⟨stamp', hn'⟩ := h.directories place stamp hn
        rw [hn']
        rfl

theorem node?_insert (t : FileTree) (place other : Place) (node : FileNode) :
    ({ t with nodes := t.nodes.insert place node } : FileTree).node? other =
      if place = other ∧ other ≠ [] then some node else t.node? other := by
  rw [node?, node?]
  cases other with
  | nil =>
    rw [if_neg fun h : place = [] ∧ [] ≠ [] ↦ h.2 rfl]
    rfl
  | cons name names =>
    simp only [List.isEmpty_cons, Bool.false_eq_true, if_false, ne_eq, reduceCtorEq, not_false_eq_true, and_true]
    exact Table.find?_insert t.nodes place (name :: names) node

private theorem node?_touchParent (t : FileTree) (place other : Place) :
    (t.touchParent place).node? other =
      if place.dropLast = other ∧ other ≠ [] then some (.directory t.clock) else t.node? other := by
  unfold touchParent
  split
  · next hempty =>
    rw [if_neg]
    rintro ⟨rfl, hne⟩
    exact hne (List.isEmpty_iff.mp hempty)
  · exact node?_insert t place.dropLast other _

/-- A node that is put is at its place. If there was none, the directory above is marked. Nothing else changes. -/
theorem node?_put (t : FileTree) (make : Nat → FileNode) (hne : place ≠ []) (other : Place) :
    (t.put place make).node? other =
      if place = other then some (make (t.clock + 1))
      else if t.node? place = none ∧ place.dropLast = other ∧ other ≠ [] then some (.directory (t.clock + 1))
      else t.node? other := by
  have hclock : ∀ other, ({ t with clock := t.clock + 1 } : FileTree).node? other = t.node? other := fun _ ↦ rfl
  have hmarked : (({ t with clock := t.clock + 1 } : FileTree).touchParent place).clock = t.clock + 1 := by
    unfold touchParent
    split <;> rfl
  unfold put
  dsimp only
  rw [hclock, node?_insert]
  by_cases hplace : place = other
  · rw [if_pos ⟨hplace, hplace ▸ hne⟩, if_pos hplace]
    split
    · rfl
    · rw [hmarked]
  · rw [if_neg fun h : place = other ∧ _ ↦ hplace h.1, if_neg hplace]
    cases t.node? place with
    | some node => rw [Option.isSome_some, if_pos rfl, hclock, if_neg fun h : some node = none ∧ _ ↦ nomatch h.1]
    | none => simp only [Option.isSome_none, Bool.false_eq_true, if_false, node?_touchParent, hclock, true_and]

/-- Putting a node keeps the directories unless it takes the place of one. -/
theorem extends_put {make : Nat → FileNode} (hp : ∀ stamp, t.node? place ≠ some (.directory stamp)) :
    Extends t (t.put place make) ∧ ∃ stamp, (t.put place make).node? place = some (make stamp) := by
  have hne : place ≠ [] := by
    rintro rfl
    exact hp 0 rfl
  have hcurrent : (t.put place make).current = t.current := by
    unfold put touchParent
    dsimp only
    split
    · rfl
    · split <;> rfl
  refine ⟨⟨hcurrent, fun other stamp hother ↦ ?_⟩, t.clock + 1, ?_⟩
  · rw [node?_put t make hne]
    split
    · next heq => exact absurd (heq ▸ hother) (hp stamp)
    · split
      · exact ⟨_, rfl⟩
      · exact ⟨stamp, hother⟩
  · rw [node?_put t make hne, if_pos rfl]

/-- Making directories keeps those that there are. It has no effect where they are all there. -/
theorem makeDirectories_eq_ok (h : t.makeDirectories place names = .ok t') :
    Extends t t' ∧ ∀ t'', Extends t' t'' → t''.makeDirectories place names = .ok t'' := by
  induction names generalizing t place with
  | nil =>
    obtain rfl := Except.ok.inj h
    exact ⟨.refl t, fun _ _ ↦ rfl⟩
  | cons name names ih =>
    obtain ⟨next, hnext, h⟩ := bind_eq_ok.mp h
    -- the directory is there afterwards, whether it was made or not
    have hrest : ∀ t₁ : FileTree, Extends t t₁ →
        (∃ stamp, t₁.node? next = some (.directory stamp)) →
        t₁.makeDirectories next names = .ok t' → Extends t t' ∧ ∀ t'', Extends t' t'' →
          t''.makeDirectories place (name :: names) = .ok t'' := by
      rintro t₁ ht₁ ⟨stamp, hstamp⟩ h₁
      obtain ⟨he, hagain⟩ := ih h₁
      refine ⟨ht₁.trans he, fun t'' ht'' ↦ ?_⟩
      obtain ⟨stamp', hstamp'⟩ := (he.trans ht'').directories next stamp hstamp
      rw [makeDirectories, ((ht₁.trans he).trans ht'').follow hnext, bind_ok, hstamp']
      exact hagain t'' ht''
    split at h
    · next stamp hp => exact hrest t (.refl t) ⟨stamp, hp⟩ h
    · cases h
    · next hp =>
      obtain ⟨he, stamp, hstamp⟩ := @extends_put t next .directory fun stamp ↦ by rw [hp]; nofun
      exact hrest _ he ⟨stamp, hstamp⟩ h

theorem makeDirectory_eq_ok (h : t.makeDirectory text = .ok t') :
    Extends t t' ∧ ∀ t'', Extends t' t'' → t''.makeDirectory text = .ok t'' := by
  obtain ⟨place, hplace, h⟩ := bind_eq_ok.mp h
  obtain ⟨he, hagain⟩ := makeDirectories_eq_ok h
  refine ⟨he, fun t'' ht'' ↦ ?_⟩
  rw [makeDirectory, (he.trans ht'').start, hplace, bind_ok]
  exact hagain t'' ht''

/-- A file that was written reads back, and can be written again. -/
theorem write_eq_ok {contents : ByteArray} (h : t.write text contents = .ok t') :
    Extends t t' ∧ (∃ stamp, t'.lookup text = .ok (.file contents stamp)) ∧
      ∀ contents', ∃ t'', t'.write text contents' = .ok t'' := by
  obtain ⟨place, hplace, h⟩ := bind_eq_ok.mp h
  have hp : ∀ stamp, t.node? place ≠ some (.directory stamp) := by
    intro stamp hn
    rw [hn] at h
    cases h
  obtain ⟨he, stamp, hstamp⟩ := @extends_put t place (.file contents) hp
  have ht' : t.put place (.file contents) = t' := by
    split at h
    · cases h
    · exact Except.ok.inj h
  rw [ht'] at he hstamp
  refine ⟨he, ⟨stamp, ?_⟩, fun contents' ↦ ⟨t'.put place (.file contents'), ?_⟩⟩
  · rw [lookup, he.locate hplace, bind_ok, hstamp]
    rfl
  · rw [write, he.locate hplace, bind_ok, hstamp]
    rfl

end FileTree

/-! ### Workspaces -/

namespace Directory

variable {d d' : Directory} {path : Path} {contents : ByteArray}

theorem withMessage_eq_ok {α : Type} {r : Except AccessCause α} {a : α} : withMessage r = .ok a ↔ r = .ok a := by
  cases r with
  | error cause => exact iff_of_false nofun nofun
  | ok a' => exact ⟨fun h ↦ congrArg Except.ok (Except.ok.inj h), fun h ↦ congrArg withMessage h⟩

theorem requirePath_eq_ok {text : String} : d.requirePath path = .ok text ↔ d.filePath? path = some text := by
  rw [requirePath]
  split
  · next text' htext => rw [htext, Except.ok.injEq, Option.some.injEq]
  · next hnone => rw [hnone]; exact iff_of_false nofun nofun

/-- A file of a directory is written once the directories above it were made. -/
theorem exists_trees_of_write (h : d.write path contents = .ok d') :
    ∃ text tree tree', d.filePath? path = some text ∧ d.tree.makeDirectory (parentText text) = .ok tree ∧
      tree.write text contents = .ok tree' ∧ d' = { d with tree := tree' } := by
  obtain ⟨text, htext, h⟩ := bind_eq_ok.mp h
  obtain ⟨tree, hmade, h⟩ := bind_eq_ok.mp h
  obtain ⟨tree', hwritten, h⟩ := bind_eq_ok.mp h
  exact ⟨text, tree, tree', requirePath_eq_ok.mp htext, withMessage_eq_ok.mp hmade,
    withMessage_eq_ok.mp hwritten, (Except.ok.inj h).symm⟩

/-- What a written file of a directory comes to. -/
theorem write_eq_ok (h : d.write path contents = .ok d') :
    d'.root = d.root ∧ FileTree.Extends d.tree d'.tree ∧
      (∃ text stamp, d.filePath? path = some text ∧ d'.tree.lookup text = .ok (.file contents stamp)) ∧
      ∀ contents', ∃ d'', d'.write path contents' = .ok d'' := by
  obtain ⟨text, tree₁, tree₂, hpath, h₁, h₂, rfl⟩ := exists_trees_of_write h
  obtain ⟨he₁, hagain₁⟩ := FileTree.makeDirectory_eq_ok h₁
  obtain ⟨he₂, ⟨stamp, hread⟩, hagain₂⟩ := FileTree.write_eq_ok h₂
  refine ⟨rfl, he₁.trans he₂, ⟨text, stamp, hpath, hread⟩, fun contents' ↦ ?_⟩
  obtain ⟨tree₃, h₃⟩ := hagain₂ contents'
  refine ⟨{ d with tree := tree₃ }, ?_⟩
  have hsame : ({ d with tree := tree₂ } : Directory).requirePath path = .ok text := requirePath_eq_ok.mpr hpath
  rw [write, hsame, bind_ok]
  dsimp only
  rw [hagain₁ tree₂ he₂]
  change withMessage (tree₂.write text contents') >>= _ = _
  rw [h₃]
  rfl

/-- Whether a file can be written does not depend on references. -/
theorem isOk_write_references (d : Directory) (references : Table String (List String)) (path : Path)
    (contents : ByteArray) :
    (({ d with references } : Directory).write path contents).isOk = (d.write path contents).isOk := by
  have hpath : ({ d with references } : Directory).requirePath path = d.requirePath path := rfl
  rw [write, write, hpath]
  cases d.requirePath path with
  | error error => rw [bind_error, bind_error]
  | ok text =>
    rw [bind_ok, bind_ok]
    cases withMessage (d.tree.makeDirectory (parentText text)) with
    | error error => rw [bind_error, bind_error]
    | ok tree =>
      rw [bind_ok, bind_ok]
      cases withMessage (tree.write text contents) <;> rfl

end Directory

namespace Memory

variable {m m' : Memory} {path : Path} {contents : ByteArray}

/-- Adding folders keeps the projects and where they lie. -/
private theorem ensureFolders_projects (m : Memory) (isExternal : Bool) (path : Path) :
    (m.ensureFolders isExternal path).projects = m.projects ∧
      (m.ensureFolders isExternal path).locationRoot = m.locationRoot := by
  unfold ensureFolders
  generalize foldersAbove isExternal path = folders
  induction folders generalizing m with
  | nil => exact ⟨rfl, rfl⟩
  | cons folder folders ih =>
    rw [List.foldl_cons, (ih _).1, (ih _).2]
    cases isExternal <;> exact ⟨rfl, rfl⟩

/-- What a written file in memory comes to. -/
theorem write_eq_ok (h : m.write path contents = .ok m') :
    m'.projects = m.projects ∧ m'.locationRoot = m.locationRoot ∧
      (∃ stamp, m'.resources.find? path = some { kind := .file, contents, stamp }) ∧
      ∀ contents', ∃ m'', m'.write path contents' = .ok m'' := by
  rw [write] at h
  split at h
  · cases h
  · next project hproject =>
    split at h
    · cases h
    · next hallowed =>
      obtain rfl := Except.ok.inj h
      obtain ⟨hprojects, hroot⟩ := ensureFolders_projects m false path
      change (m.putFile false path contents).projects = m.projects at hprojects
      refine ⟨hprojects, hroot, ⟨(m.ensureFolders false path).clock + 1, ?_⟩, fun contents' ↦ ?_⟩
      · exact (Table.find?_insert _ path path _).trans (if_pos rfl)
      · rw [write, hproject]
        dsimp only
        rw [hprojects, if_neg hallowed]
        exact ⟨_, rfl⟩

end Memory

namespace Workspace

variable {w w' : Workspace} {path : Path} {contents : ByteArray}

/-- The workspace apart from the references of its projects. -/
def files : Workspace → Workspace
  | memory m => memory { m with
      projects := ⟨m.projects.records.map fun r ↦ (r.1, { r.2 with references := [] })⟩ }
  | directory d => directory { d with references := .empty }

theorem projectExists_files (w : Workspace) (name : String) :
    w.files.projectExists name = w.projectExists name := by
  cases w with
  | memory m =>
    change (Table.find? ⟨m.projects.records.map _⟩ name).isSome = (Table.find? _ name).isSome
    rw [Table.find?, Table.find?, List.find?_map]
    simp only [Option.isSome_map]
    rfl
  | directory d => rfl

theorem location?_files (w : Workspace) (path : Path) : w.files.location? path = w.location? path := by
  cases w <;> rfl

theorem kind?_files (w : Workspace) (path : Path) : w.files.kind? path = w.kind? path := by
  cases w <;> rfl

theorem externalKind?_files (w : Workspace) (path : Path) :
    w.files.externalKind? path = w.externalKind? path := by
  cases w <;> rfl

theorem read_files (w : Workspace) (path : Path) : w.files.read path = w.read path := by
  cases w <;> rfl

theorem stamp?_files (w : Workspace) (path : Path) : w.files.stamp? path = w.stamp? path := by
  cases w <;> rfl

theorem nature?_files (w : Workspace) (name : String) : w.files.nature? name = w.nature? name := by
  cases w with
  | memory m =>
    change (Table.find? ⟨m.projects.records.map _⟩ name).bind _ = (Table.find? _ name).bind _
    rw [Table.find?, Table.find?, List.find?_map]
    simp only [Option.bind_map, Option.map_map]
    rfl
  | directory d => rfl

theorem projectNames_files (w : Workspace) : w.files.projectNames = w.projectNames := by
  cases w with
  | memory m =>
    change (List.map Prod.fst (m.projects.records.map _)).mergeSort _ = _
    rw [List.map_map]
    rfl
  | directory d => rfl

theorem candidateNames_files (w : Workspace) : w.files.candidateNames = w.candidateNames := by
  cases w with
  | memory m => exact List.map_map
  | directory d => rfl

theorem chainedLibraries_files (w : Workspace) : w.files.chainedLibraries = w.chainedLibraries := by
  have hkind : w.files.kindOn? = w.kindOn? := by
    cases w <;> rfl
  have hreferences : w.files.libraryReferences = w.libraryReferences := by
    cases w <;> rfl
  have hbound : w.files.pathBound = w.pathBound := by
    cases w <;> rfl
  have hfollow : ∀ external depth library walk, w.files.followReferences external depth library walk =
      w.followReferences external depth library walk := by
    intro external depth
    induction depth with
    | zero => exact fun _ _ ↦ rfl
    | succ depth ih =>
      intro library walk
      rw [followReferences, followReferences, hreferences, hkind]
      simp only [ih]
  funext library external
  rw [chainedLibraries, chainedLibraries, hfollow, hbound]

section

variable (h : w'.files = w.files)

include h

theorem kind?_of_files (path : Path) : w'.kind? path = w.kind? path := by
  rw [← w'.kind?_files, h, kind?_files]

theorem externalKind?_of_files (path : Path) : w'.externalKind? path = w.externalKind? path := by
  rw [← w'.externalKind?_files, h, externalKind?_files]

theorem read_of_files (path : Path) : w'.read path = w.read path := by
  rw [← read_files w', h, read_files]

theorem stamp?_of_files (path : Path) : w'.stamp? path = w.stamp? path := by
  rw [← stamp?_files w', h, stamp?_files]

/-- A workspace in memory has the same tables as one that differs by references only. -/
theorem exists_memory_of_files {memory : Memory} (hmemory : w = .memory memory) :
    ∃ memory', w' = .memory memory' ∧ memory'.resources = memory.resources ∧
      memory'.clock = memory.clock := by
  rw [hmemory] at h
  cases w' with
  | memory memory' =>
    obtain ⟨-, -, hresources, -, hclock⟩ := Memory.mk.inj (Workspace.memory.inj h)
    exact ⟨memory', rfl, hresources, hclock⟩
  | directory d => cases h

theorem projectExists_of_files (name : String) : w'.projectExists name = w.projectExists name := by
  rw [← w'.projectExists_files, h, projectExists_files]

theorem isScript_of_files (name : String) : w'.isScript name = w.isScript name := by
  rw [isScript, isScript, ← w'.nature?_files, h, nature?_files]

theorem projectLocation?_of_files (name : String) :
    w'.projectLocation? name = w.projectLocation? name := by
  rw [projectLocation?, projectLocation?, ← w'.location?_files, h, location?_files]

theorem scriptProjects_of_files : w'.scriptProjects = w.scriptProjects := by
  rw [scriptProjects, scriptProjects, ← w'.projectNames_files, h, projectNames_files,
    funext (isScript_of_files h)]

theorem candidateNames_of_files : w'.candidateNames = w.candidateNames := by
  rw [← w'.candidateNames_files, h, candidateNames_files]

theorem chainedLibraries_of_files : w'.chainedLibraries = w.chainedLibraries := by
  rw [← w'.chainedLibraries_files, h, chainedLibraries_files]

end

private theorem map_insertRecord {α β : Type} {f : String × α → String × β} {name : String}
    {old new : α} {records : List (String × α)}
    (hf : f (name, new) = f (name, old))
    (h : (records.find? fun r ↦ r.1 = name).map Prod.snd = some old) :
    (Table.insertRecord name new records).map f = records.map f := by
  induction records with
  | nil => cases h
  | cons r records ih =>
    rw [Table.insertRecord]
    by_cases hr : r.1 = name
    · rw [if_pos hr, List.map_cons, List.map_cons]
      rw [List.find?_cons_of_pos (by simpa using hr)] at h
      obtain rfl := Option.some.inj h
      obtain ⟨first, second⟩ := r
      obtain rfl : first = name := hr
      rw [hf]
    · rw [if_neg hr, List.map_cons, List.map_cons, ih]
      rwa [List.find?_cons_of_neg (by simpa using hr)] at h

/-- Setting references changes only references. -/
theorem files_setReferences {name : String} {names : List String}
    (h : w.setReferences name names = .ok w') : w'.files = w.files := by
  cases w with
  | memory m =>
    change (m.setReferences name names).map memory = .ok w' at h
    rw [Memory.setReferences] at h
    split at h
    · cases h
    · next record hrecord =>
      obtain rfl := Except.ok.inj h
      change memory { m with projects := ⟨(Table.insertRecord name _ _).map _⟩ } = files (memory m)
      rw [map_insertRecord (by rfl) hrecord]
      rfl
  | directory d =>
    change (d.setReferences name names).map directory = .ok w' at h
    rw [Directory.setReferences] at h
    split at h
    · obtain rfl := Except.ok.inj h
      rfl
    · cases h

/-- Whether a file can be written does not depend on references. -/
theorem isOk_write_files (w : Workspace) (path : Path) (contents : ByteArray) :
    (w.files.write path contents).isOk = (w.write path contents).isOk := by
  cases w with
  | memory m =>
    change (Except.map memory (Memory.write _ path contents)).isOk =
      (Except.map memory (m.write path contents)).isOk
    rw [Memory.write, Memory.write]
    split
    · rfl
    · next project _ =>
      have hproject : Table.contains _ project = m.projects.contains project :=
        projectExists_files (memory m) project
      dsimp only
      rw [hproject]
      split <;> rfl
  | directory d =>
    have hiff := d.isOk_write_references .empty path contents
    change (Except.map directory (Directory.write _ path contents)).isOk =
      (Except.map directory (d.write path contents)).isOk
    revert hiff
    cases Directory.write _ path contents <;> cases d.write path contents <;> exact id

/-- What a written file comes to: it can be read and written again, and the projects are still there, at
the same places. -/
theorem write_eq_ok (h : w.write path contents = .ok w') :
    (path.segmentCount ≠ 1 → w'.hasResource path) ∧ w'.read path = .ok contents ∧
      (∀ name, w.projectExists name → w'.projectExists name) ∧
      (∀ other, w'.location? other = w.location? other) ∧
      ∀ contents', ∃ w'', w'.write path contents' = .ok w'' := by
  cases w with
  | memory m =>
    obtain ⟨m', hw, rfl⟩ : ∃ m', m.write path contents = .ok m' ∧ memory m' = w' := map_eq_ok.mp h
    obtain ⟨hprojects, hroot, ⟨stamp, hfind⟩, hagain⟩ := Memory.write_eq_ok hw
    refine ⟨fun _ ↦ ?_, ?_, fun name hname ↦ ?_, fun other ↦ ?_, fun contents' ↦ ?_⟩
    · change ((m'.resources.find? path).map Resource.kind).isSome
      rw [hfind]
      rfl
    · change Memory.readFrom m'.resources path = _
      rw [Memory.readFrom, hfind]
      rfl
    · change m'.projects.contains name
      rw [hprojects]
      exact hname
    · change m'.location? other = m.location? other
      rw [Memory.location?, Memory.location?, hroot]
    · obtain ⟨m'', hm''⟩ := hagain contents'
      exact ⟨memory m'', congrArg (Except.map memory) hm''⟩
  | directory d =>
    obtain ⟨d', hw, rfl⟩ : ∃ d', d.write path contents = .ok d' ∧ directory d' = w' := map_eq_ok.mp h
    obtain ⟨hroot, he, ⟨text, stamp, hpath, hlookup⟩, hagain⟩ := Directory.write_eq_ok hw
    have hpath' : d'.filePath? path = some text := by
      rw [Directory.filePath?, hroot]
      exact hpath
    refine ⟨fun hp ↦ ?_, ?_, fun name hname ↦ ?_, fun other ↦ ?_, fun contents' ↦ ?_⟩
    · change (d'.kind? path).isSome
      rw [Directory.kind?, hpath', Option.bind_some, FileTree.kind?, hlookup]
      dsimp only
      rw [if_neg hp]
      rfl
    · change d'.read path = _
      rw [Directory.read, Directory.requirePath, hpath', bind_ok, FileTree.read, hlookup]
      rfl
    · obtain ⟨hne, hd⟩ := (Bool.and_eq_true _ _).mp hname
      refine (Bool.and_eq_true _ _).mpr ⟨hne, ?_⟩
      rw [hroot]
      exact he.isDirectory hd
    · change (d'.filePath? other).map Path.parse = (d.filePath? other).map Path.parse
      rw [Directory.filePath?, Directory.filePath?, hroot]
    · obtain ⟨d'', hd''⟩ := hagain contents'
      exact ⟨directory d'', congrArg (Except.map directory) hd''⟩

end Workspace

/-- What a project file holds does not depend on references. -/
theorem ProjectFile.load_files (w : Workspace) (project : String) :
    ProjectFile.load w.files project = ProjectFile.load w project := by
  have hresource : ∀ path, w.files.hasResource path = w.hasResource path := by
    cases w <;> exact fun _ ↦ rfl
  rw [load, load, hresource, Workspace.read_files]

theorem ProjectFile.load_of_files {w w' : Workspace} (h : w'.files = w.files) (project : String) :
    ProjectFile.load w' project = ProjectFile.load w project := by
  rw [← load_files w', h, load_files]

end Buildpath
