import Buildpath.Resource.Memory

/-!
# Times of changes

A workspace in memory is changed by calls (`Memory.Edit`), which let its clock go on for all that they make. What is
new after a call is younger than everything before it (`Memory.Ages`), and what is not new was left alone. So a
resource has the time of an earlier moment exactly if no call since then wrote, replaced or removed it
(`Memory.stamp?_edited_iff`).
-/

namespace Buildpath

namespace Memory

variable {m m' m'' : Memory} {path other : Path} {contents : ByteArray}

/-- Whether every resource of the workspace was changed last when the clock says so or before. -/
def Dated (m : Memory) : Prop :=
  ∀ path resource, m.resources.find? path = some resource → resource.stamp ≤ m.clock

/-- The clock goes on, and a resource that is new, or that took the place of another one, is younger than the clock
was. -/
structure Ages (m m' : Memory) : Prop where
  clock : m.clock ≤ m'.clock
  found : ∀ path resource, m'.resources.find? path = some resource →
    m.resources.find? path = some resource ∨ m.clock < resource.stamp ∧ resource.stamp ≤ m'.clock

theorem Ages.of_resources (hresources : m'.resources = m.resources) (hclock : m.clock ≤ m'.clock) : m.Ages m' :=
  ⟨hclock, fun _ _ h ↦ .inl (hresources ▸ h)⟩

theorem Ages.trans (h : m.Ages m') (h' : m'.Ages m'') : m.Ages m'' := by
  refine ⟨Nat.le_trans h.clock h'.clock, fun path resource hfound ↦ ?_⟩
  rcases h'.found path resource hfound with hsame | ⟨hyoung, hpast⟩
  · exact (h.found path resource hsame).imp_right fun hnew ↦ ⟨hnew.1, Nat.le_trans hnew.2 h'.clock⟩
  · exact .inr ⟨Nat.lt_of_le_of_lt h.clock hyoung, hpast⟩

theorem Ages.dated (h : m.Ages m') (hm : m.Dated) : m'.Dated := by
  intro path resource hfound
  rcases h.found path resource hfound with hsame | ⟨-, hpast⟩
  · exact Nat.le_trans (hm path resource hsame) h.clock
  · exact hpast

/-! ### Folders that are made -/

private def makeFolder (m : Memory) (folder : Path) : Memory :=
  { m with
    clock := m.clock + 1
    resources := m.resources.insertIfNew folder { kind := .folder, stamp := m.clock + 1 } }

/-- What is at a path after folders were made: what was there before, or a new folder if it is one of them. -/
private theorem foldl_makeFolder (folders : List Path) (m : Memory) (other : Path) :
    m.clock ≤ (folders.foldl makeFolder m).clock ∧
    ((folders.foldl makeFolder m).resources.find? other = m.resources.find? other ∧
        (other ∈ folders → m.resources.contains other) ∨
      m.resources.find? other = none ∧ other ∈ folders ∧ ∃ stamp, m.clock < stamp ∧
        stamp ≤ (folders.foldl makeFolder m).clock ∧
        (folders.foldl makeFolder m).resources.find? other = some { kind := .folder, stamp }) := by
  induction folders generalizing m with
  | nil => exact ⟨Nat.le_refl _, .inl ⟨rfl, nofun⟩⟩
  | cons folder folders ih =>
    obtain ⟨hclock, hcases⟩ := ih (m.makeFolder folder)
    have hmade : (m.makeFolder folder).resources.find? other = if folder = other then
        some ((m.resources.find? other).getD { kind := .folder, stamp := m.clock + 1 })
        else m.resources.find? other :=
      m.resources.find?_insertIfNew folder other _
    have hnext : m.clock < (m.makeFolder folder).clock := Nat.lt_succ_self _
    refine ⟨Nat.le_trans (Nat.le_of_lt hnext) hclock, ?_⟩
    rw [List.foldl_cons]
    by_cases heq : folder = other
    · subst heq
      rw [if_pos rfl] at hmade
      -- from here on there is something at the path
      obtain ⟨hsame, -⟩ | ⟨hnone, -⟩ := hcases
      · rw [hsame, hmade]
        cases hold : m.resources.find? folder with
        | some old => exact .inl ⟨rfl, fun _ ↦ by rw [Table.contains, hold]; rfl⟩
        | none => exact .inr ⟨rfl, List.mem_cons_self, m.clock + 1, hnext, hclock, rfl⟩
      · rw [hmade] at hnone
        cases hnone
    · rw [if_neg heq] at hmade
      have hcontains : (m.makeFolder folder).resources.contains other = m.resources.contains other := by
        rw [Table.contains, hmade, Table.contains]
      rw [hmade, hcontains] at hcases
      obtain ⟨hsame, hthere⟩ | ⟨hnone, hmem, stamp, hyoung, hpast, hnew⟩ := hcases
      · exact .inl ⟨hsame, fun hmem ↦ hthere ((List.mem_cons.mp hmem).resolve_left (Ne.symm heq))⟩
      · exact .inr
          ⟨hnone, List.mem_cons_of_mem folder hmem, stamp, Nat.lt_trans hnext hyoung, hpast, hnew⟩

/-- Making the folders above a path puts a new folder at each of their paths where there is nothing. -/
theorem ensureFolders_cases (m : Memory) (path other : Path) :
    (m.ensureFolders false path).resources.find? other = m.resources.find? other ∧
        (other ∈ foldersAbove false path → m.resources.contains other) ∨
      m.resources.find? other = none ∧ other ∈ foldersAbove false path ∧ ∃ stamp, m.clock < stamp ∧
        stamp ≤ (m.ensureFolders false path).clock ∧
        (m.ensureFolders false path).resources.find? other = some { kind := .folder, stamp } :=
  (foldl_makeFolder (foldersAbove false path) m other).2

private theorem ensureFolders_external (m : Memory) (path : Path) :
    (m.ensureFolders true path).resources = m.resources ∧ m.clock ≤ (m.ensureFolders true path).clock := by
  unfold ensureFolders
  generalize foldersAbove true path = folders
  induction folders generalizing m with
  | nil => exact ⟨rfl, Nat.le_refl _⟩
  | cons folder folders ih =>
    rw [List.foldl_cons]
    exact (ih _).imp_right fun hclock ↦ Nat.le_of_succ_le hclock

theorem ages_ensureFolders (m : Memory) (isExternal : Bool) (path : Path) :
    m.Ages (m.ensureFolders isExternal path) := by
  cases isExternal with
  | true => exact .of_resources (m.ensureFolders_external path).1 (m.ensureFolders_external path).2
  | false =>
    refine ⟨(foldl_makeFolder (foldersAbove false path) m path).1, fun other resource hfound ↦ ?_⟩
    obtain ⟨hsame, -⟩ | ⟨-, -, stamp, hyoung, hpast, hnew⟩ := m.ensureFolders_cases path other
    · exact .inl (hsame ▸ hfound)
    · cases hnew.symm.trans hfound
      exact .inr ⟨hyoung, hpast⟩

/-- Making folders leaves alone what is there. -/
theorem find?_ensureFolders_of_found {resource : Resource} (h : m.resources.find? other = some resource)
    (isExternal : Bool) (path : Path) :
    (m.ensureFolders isExternal path).resources.find? other = some resource := by
  cases isExternal with
  | true => rw [(m.ensureFolders_external path).1, h]
  | false =>
    obtain ⟨hsame, -⟩ | ⟨hnone, -⟩ := m.ensureFolders_cases path other
    · rw [hsame, h]
    · cases hnone.symm.trans h

/-! ### Resources that are put and removed -/

private def put (m : Memory) (path : Path) (kind : ResourceKind) (contents : ByteArray) : Memory :=
  { m with
    clock := m.clock + 1
    resources := m.resources.insert path { kind, contents, stamp := m.clock + 1 } }

private theorem find?_put (m : Memory) (path other : Path) (kind : ResourceKind) (contents : ByteArray) :
    (m.put path kind contents).resources.find? other =
      if path = other then some { kind, contents, stamp := m.clock + 1 } else m.resources.find? other :=
  m.resources.find?_insert path other _

private theorem ages_put (m : Memory) (path : Path) (kind : ResourceKind) (contents : ByteArray) :
    m.Ages (m.put path kind contents) := by
  refine ⟨Nat.le_succ _, fun other resource hfound ↦ ?_⟩
  rw [find?_put] at hfound
  split at hfound
  · cases hfound
    exact .inr ⟨Nat.lt_succ_self _, Nat.le_refl _⟩
  · exact .inl hfound

theorem ages_addProject (m : Memory) (name : String) (nature : Option String) :
    m.Ages (m.addProject name nature) :=
  have h := m.ages_put (projectPath name) .project .empty
  ⟨h.clock, h.found⟩

theorem find?_addProject (m : Memory) (name : String) (nature : Option String) (other : Path) :
    (m.addProject name nature).resources.find? other =
      if projectPath name = other then some { kind := .project, stamp := m.clock + 1 }
      else m.resources.find? other :=
  m.find?_put (projectPath name) other .project .empty

theorem ages_putFile (m : Memory) (isExternal : Bool) (path : Path) (contents : ByteArray) :
    m.Ages (m.putFile isExternal path contents) := by
  refine (m.ages_ensureFolders isExternal path).trans ?_
  cases isExternal with
  | true => exact .of_resources rfl (Nat.le_succ _)
  | false => exact ages_put _ path .file contents

theorem find?_addFile (m : Memory) (path other : Path) (contents : ByteArray) :
    (m.addFile path contents).resources.find? other =
      if path = other then some { kind := .file, contents, stamp := (m.ensureFolders false path).clock + 1 }
      else (m.ensureFolders false path).resources.find? other :=
  find?_put _ path other .file contents

/-- Taking resources away makes nothing new. -/
theorem ages_filterKeys (m : Memory) (projects : Table String ProjectRecord) (keep : Path → Bool) :
    m.Ages { m with projects, resources := m.resources.filterKeys keep } := by
  refine ⟨Nat.le_refl _, fun other resource hfound ↦ .inl ?_⟩
  rw [Table.find?_filterKeys] at hfound
  split at hfound
  · exact hfound
  · cases hfound

theorem find?_remove (m : Memory) (path other : Path) :
    (m.remove path).resources.find? other = if path.isPrefixOf other then none else m.resources.find? other := by
  rw [remove, Table.find?_filterKeys]
  cases path.isPrefixOf other <;> rfl

theorem find?_removeProject (m : Memory) (name : String) (other : Path) :
    (m.removeProject name).resources.find? other =
      if (projectPath name).isPrefixOf other then none else m.resources.find? other :=
  m.find?_remove (projectPath name) other

/-- A file is written if its path is absolute and lies below the name of a project. -/
theorem write_cases (m : Memory) (path : Path) (contents : ByteArray) :
    m.write path contents = .ok (m.addFile path contents) ∨ m.write path contents = .error (.missing path) := by
  rw [write]
  split
  · exact .inr rfl
  · split
    · exact .inr rfl
    · exact .inl rfl

/-! ### Sequences of calls -/

/-- A call that changes a workspace in memory. -/
inductive Edit where
  | addProject (name : String) (nature : Option String)
  | removeProject (name : String)
  | addFolder (path : Path)
  | addFile (path : Path) (contents : ByteArray)
  | write (path : Path) (contents : ByteArray)
  | remove (path : Path)
  | addExternalFolder (path : Path)
  | addExternalFile (path : Path) (contents : ByteArray)
  | removeExternal (path : Path)
  | setReferences (name : String) (references : List String)

/-- What a call makes of a workspace. A call that fails changes nothing. -/
def apply (m : Memory) : Edit → Memory
  | .addProject name nature => m.addProject name nature
  | .removeProject name => m.removeProject name
  | .addFolder path => m.addFolder path
  | .addFile path contents => m.addFile path contents
  | .write path contents => (m.write path contents).toOption.getD m
  | .remove path => m.remove path
  | .addExternalFolder path => m.addExternalFolder path
  | .addExternalFile path contents => m.addExternalFile path contents
  | .removeExternal path => m.removeExternal path
  | .setReferences name references => (m.setReferences name references).toOption.getD m

/-- Whether a call writes, replaces or removes the resource at a path. Folders that a call needs are made only where
there is nothing, so making them is none of it. -/
def Touches (m : Memory) (path : Path) : Edit → Prop
  | .addProject name _ => projectPath name = path
  | .addFile file _ => file = path
  | .write file contents => file = path ∧ (m.write file contents).isOk
  | .remove folder => folder.isPrefixOf path ∧ m.resources.contains path
  | .removeProject name => (projectPath name).isPrefixOf path ∧ m.resources.contains path
  | .addFolder _ | .addExternalFolder _ | .addExternalFile .. | .removeExternal _ | .setReferences .. => False

/-- The workspace after a sequence of calls. -/
def edited (m : Memory) (edits : List Edit) : Memory := edits.foldl apply m

/-- Whether one of a sequence of calls, in the workspace that it finds, writes, replaces or removes the resource at a
path. -/
def Touched (path : Path) : Memory → List Edit → Prop
  | _, [] => False
  | m, edit :: edits => m.Touches path edit ∨ Touched path (m.apply edit) edits

/-- The workspaces that calls lead to from an empty one. -/
def Reached (m : Memory) : Prop := ∃ root edits, m = edited { locationRoot := root } edits

private theorem apply_write (m : Memory) (path : Path) (contents : ByteArray) :
    m.apply (.write path contents) = m.addFile path contents ∧ (m.write path contents).isOk ∨
      m.apply (.write path contents) = m ∧ (m.write path contents).isOk = false := by
  rw [apply]
  rcases m.write_cases path contents with h | h
  · exact .inl (by rw [h]; exact ⟨rfl, rfl⟩)
  · exact .inr (by rw [h]; exact ⟨rfl, rfl⟩)

private theorem apply_setReferences (m : Memory) (name : String) (references : List String) :
    (m.apply (.setReferences name references)).resources = m.resources ∧
      (m.apply (.setReferences name references)).clock = m.clock := by
  rw [apply, setReferences]
  cases m.projects.find? name <;> exact ⟨rfl, rfl⟩

/-- The clock goes on with every call. -/
theorem ages_apply (m : Memory) (edit : Edit) : m.Ages (m.apply edit) := by
  cases edit with
  | addProject name nature => exact m.ages_addProject name nature
  | removeProject name => exact m.ages_filterKeys _ _
  | addFolder path => exact m.ages_ensureFolders false _
  | addFile path contents => exact m.ages_putFile false path contents
  | write path contents =>
    rcases m.apply_write path contents with ⟨h, -⟩ | ⟨h, -⟩
    · exact h ▸ m.ages_putFile false path contents
    · exact .of_resources (congrArg resources h) (Nat.le_of_eq (congrArg clock h.symm))
  | remove path => exact m.ages_filterKeys _ _
  | addExternalFolder path => exact m.ages_ensureFolders true _
  | addExternalFile path contents => exact m.ages_putFile true path contents
  | removeExternal path => exact .of_resources rfl (Nat.le_refl _)
  | setReferences name references =>
    obtain ⟨hresources, hclock⟩ := m.apply_setReferences name references
    exact .of_resources hresources (Nat.le_of_eq hclock.symm)

private theorem lt_stamp_addFile {resource : Resource}
    (h : (m.addFile path contents).resources.find? path = some resource) : m.clock < resource.stamp := by
  rw [find?_addFile, if_pos rfl] at h
  cases h
  exact Nat.lt_succ_of_le (m.ages_ensureFolders false path).clock

/-- What a call that touches a path leaves there is younger than everything before the call. -/
theorem lt_stamp_of_touches {edit : Edit} (h : m.Touches path edit) {resource : Resource}
    (hfound : (m.apply edit).resources.find? path = some resource) : m.clock < resource.stamp := by
  cases edit with
  | addProject name nature =>
    rw [apply, find?_addProject, if_pos (show projectPath name = path from h)] at hfound
    cases hfound
    exact Nat.lt_succ_self _
  | addFile file contents =>
    obtain rfl : file = path := h
    exact lt_stamp_addFile hfound
  | write file contents =>
    obtain ⟨rfl, hok⟩ : file = path ∧ (m.write file contents).isOk := h
    rcases m.apply_write file contents with ⟨heq, -⟩ | ⟨-, hfailed⟩
    · exact lt_stamp_addFile (heq ▸ hfound)
    · cases hfailed.symm.trans hok
  | remove folder =>
    rw [apply, find?_remove, if_pos h.1] at hfound
    cases hfound
  | removeProject name =>
    rw [apply, find?_removeProject, if_pos h.1] at hfound
    cases hfound
  | addFolder _ | addExternalFolder _ | addExternalFile _ _ | removeExternal _ | setReferences _ _ => exact h.elim

private theorem find?_addFile_of_ne {resource : Resource} (hne : other ≠ path)
    (h : m.resources.find? path = some resource) :
    (m.addFile other contents).resources.find? path = some resource := by
  rw [find?_addFile, if_neg hne]
  exact find?_ensureFolders_of_found h false other

/-- A call that does not touch a path leaves alone what is there. -/
theorem find?_apply_of_not_touches {edit : Edit} {resource : Resource} (h : ¬ m.Touches path edit)
    (hfound : m.resources.find? path = some resource) : (m.apply edit).resources.find? path = some resource := by
  have hthere : m.resources.contains path := by rw [Table.contains, hfound]; rfl
  cases edit with
  | addProject name nature => rw [apply, find?_addProject, if_neg (show projectPath name ≠ path from h), hfound]
  | addFile file contents => exact find?_addFile_of_ne h hfound
  | write file contents =>
    rcases m.apply_write file contents with ⟨heq, hok⟩ | ⟨heq, -⟩
    · rw [heq]
      exact find?_addFile_of_ne (fun hsame ↦ h ⟨hsame, hok⟩) hfound
    · rw [heq, hfound]
  | remove folder => rw [apply, find?_remove, if_neg fun hbelow ↦ h ⟨hbelow, hthere⟩, hfound]
  | removeProject name => rw [apply, find?_removeProject, if_neg fun hbelow ↦ h ⟨hbelow, hthere⟩, hfound]
  | addFolder folder => exact find?_ensureFolders_of_found hfound false _
  | addExternalFolder folder => exact find?_ensureFolders_of_found hfound true _
  | addExternalFile file contents => exact find?_ensureFolders_of_found hfound true file
  | removeExternal folder => exact hfound
  | setReferences name references => rw [(m.apply_setReferences name references).1, hfound]

theorem ages_edited (m : Memory) (edits : List Edit) : m.Ages (m.edited edits) := by
  induction edits generalizing m with
  | nil => exact .of_resources rfl (Nat.le_refl _)
  | cons edit edits ih => exact (m.ages_apply edit).trans (ih _)

theorem Reached.dated (h : m.Reached) : m.Dated := by
  obtain ⟨root, edits, rfl⟩ := h
  exact (ages_edited _ edits).dated fun _ _ hfound ↦ by cases hfound

/-- What calls leave at a path that they touched is younger than everything before them. -/
private theorem lt_stamp_of_touched {edits : List Edit} (h : m.Touched path edits) {resource : Resource}
    (hfound : (m.edited edits).resources.find? path = some resource) : m.clock < resource.stamp := by
  induction edits generalizing m with
  | nil => exact h.elim
  | cons edit edits ih =>
    have hages := m.ages_apply edit
    rcases h with h | h
    · -- whatever is left was there right after the call, or came later
      rcases (ages_edited _ edits).found path resource hfound with hsame | ⟨hyoung, -⟩
      · exact lt_stamp_of_touches h hsame
      · exact Nat.lt_of_le_of_lt hages.clock hyoung
    · exact Nat.lt_of_le_of_lt hages.clock (ih h hfound)

private theorem find?_edited_of_not_touched {edits : List Edit} (h : ¬ m.Touched path edits) {resource : Resource}
    (hfound : m.resources.find? path = some resource) :
    (m.edited edits).resources.find? path = some resource := by
  induction edits generalizing m with
  | nil => exact hfound
  | cons edit edits ih =>
    obtain ⟨hedit, hedits⟩ := not_or.mp h
    exact ih hedits (find?_apply_of_not_touches hedit hfound)

/-- A resource of a workspace in memory has the same time before and after a sequence of calls exactly if none of
them wrote, replaced or removed it, however often the other resources and the folders above it came and went. It is
then the same resource. If the resource was replaced, or removed and made again, its time is a later one. -/
theorem stamp?_edited_iff (hm : m.Reached) {stamp : Nat} (hstamp : m.stamp? path = some stamp) (edits : List Edit) :
    ((m.edited edits).stamp? path = some stamp ↔ ¬ m.Touched path edits) ∧
      (¬ m.Touched path edits → (m.edited edits).resources.find? path = m.resources.find? path) ∧
      ∀ later, (m.edited edits).stamp? path = some later → stamp ≤ later := by
  obtain ⟨resource, hfound, rfl⟩ := Option.map_eq_some_iff.mp hstamp
  have hpast := hm.dated path resource hfound
  have hkept (h : ¬ m.Touched path edits) := (find?_edited_of_not_touched h hfound).trans hfound.symm
  have hyoung (h : m.Touched path edits) {later : Nat} (hlater : (m.edited edits).stamp? path = some later) :
      resource.stamp < later := by
    obtain ⟨resource', hfound', rfl⟩ := Option.map_eq_some_iff.mp hlater
    exact Nat.lt_of_le_of_lt hpast (lt_stamp_of_touched h hfound')
  have hsame (h : ¬ m.Touched path edits) : (m.edited edits).stamp? path = some resource.stamp := by
    rw [stamp?, hkept h, hfound]
    rfl
  refine ⟨⟨fun h htouched ↦ Nat.lt_irrefl _ (hyoung htouched h), hsame⟩, hkept, fun later hlater ↦ ?_⟩
  by_cases h : m.Touched path edits
  · exact Nat.le_of_lt (hyoung h hlater)
  · exact Nat.le_of_eq (Option.some.inj ((hsame h).symm.trans hlater))

/-- The file `/p/a` in a project. -/
def noteFile : Path := ⟨none, true, ["p", "a"]⟩

/-- A project with one file. -/
def withNote : Memory := edited {} [.addProject "p" none, .addFile noteFile .empty]

/-- Calls that make another file below the first one, and remove it again. -/
def besideNote : List Edit :=
  [.addFile ⟨none, true, ["p", "a", "b"]⟩ .empty, .remove ⟨none, true, ["p", "a", "b"]⟩, .addFolder noteFile]

/-- Calls that remove all of the project, and make the file again. -/
def replacedNote : List Edit := [.remove ⟨none, true, ["p"]⟩, .addFile noteFile .empty]

/-- The first calls leave the time of the file as it was, the others do not, although the file is empty again. -/
theorem stamp?_noteFile : withNote.Reached ∧ withNote.stamp? noteFile = some 2 ∧
    (withNote.edited besideNote).stamp? noteFile = some 2 ∧
    (withNote.edited replacedNote).stamp? noteFile ≠ some 2 := by
  have hreached : withNote.Reached := ⟨_, _, rfl⟩
  have hstamp : withNote.stamp? noteFile = some 2 := by decide +kernel
  have hbeside : ¬ withNote.Touched noteFile besideNote := by
    rintro (h | ⟨h, -⟩ | h | h)
    · exact absurd (congrArg Path.segmentCount h) (by decide)
    · exact absurd h (by decide)
    · exact h
    · exact h
  have hreplaced : withNote.Touched noteFile replacedNote := .inl ⟨by decide, by decide +kernel⟩
  exact ⟨hreached, hstamp, (stamp?_edited_iff hreached hstamp besideNote).1.mpr hbeside,
    fun h ↦ (stamp?_edited_iff hreached hstamp replacedNote).1.mp h hreplaced⟩

end Memory

end Buildpath
