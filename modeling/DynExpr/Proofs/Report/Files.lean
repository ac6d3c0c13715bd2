import DynExpr.Proofs.Report.Table

/-!
# Reports in files

A report is begun in a file, and records are added to it one by one or in batches. Writing a file
does not change where paths lead (`FileTree.locate?_put`): the places above it are directories
already, since the path has gone over them. So the file can be written again and again, and holds
what was last written (`FileTree.HasFileAt.write`).

From there it follows, step by step, that the file holds the table of all records written so far
(`Csv.IsTableOf`), however they are divided into batches (`Csv.isTableOf_write`). By what is known
of tables, the records are read back from the file, and other records make another file
(`Csv.write_unambiguous`).
-/

namespace DynExpr

namespace FileTree

variable {tree : FileTree} {place lower next : Place} {path contents : Text}

/-! ### Directories -/

/-- A place is a directory if a directory is at or below it, or a file or a device below it. -/
theorem isDirectory_iff (tree : FileTree) (place : Place) :
    tree.isDirectory place = true ↔
      (∃ directory ∈ tree.home :: tree.directories, place <+: directory) ∨
        ∃ file ∈ tree.files ++ tree.devices, place.length < file.1.length ∧ place <+: file.1 := by
  simp only [isDirectory, Bool.or_eq_true, List.any_eq_true, Bool.and_eq_true, decide_eq_true_eq,
    List.isPrefixOf_iff_prefix]

/-- What lies above a directory is a directory. -/
theorem isDirectory_of_prefix (h : tree.isDirectory place = true) (hlower : lower <+: place) :
    tree.isDirectory lower = true := by
  rw [isDirectory_iff] at h ⊢
  rcases h with ⟨directory, hdirectory, hprefix⟩ | ⟨file, hfile, hlength, hprefix⟩
  · exact .inl ⟨directory, hdirectory, hlower.trans hprefix⟩
  · exact .inr ⟨file, hfile, Nat.lt_of_le_of_lt hlower.length_le hlength, hlower.trans hprefix⟩

/-- All places above are directories. -/
def HasParents (tree : FileTree) (place : Place) : Prop :=
  ∀ lower, lower <+: place → lower.length < place.length → tree.isDirectory lower = true

/-- One part of a path leads to a place below directories. -/
theorem hasParents_of_step {part : Text} (h : tree.step place part = some next) :
    tree.HasParents next := by
  unfold step at h
  split at h
  · cases h
  next hplace =>
    obtain ⟨hdirectory, -⟩ : tree.isDirectory place = true ∧ part.length ≤ longestPart := by
      simpa using hplace
    split at h
    · -- an empty part or a dot stays at the directory
      cases h
      intro lower hlower _
      exact isDirectory_of_prefix hdirectory hlower
    · split at h
      · -- two dots go to a place above it
        cases h
        intro lower hlower _
        exact isDirectory_of_prefix hdirectory (hlower.trans (List.dropLast_prefix place))
      · cases h
        -- a proper beginning of the new place is a beginning of the directory
        intro lower hlower hlength
        refine isDirectory_of_prefix hdirectory ?_
        rw [List.length_append, List.length_singleton] at hlength
        exact List.prefix_of_prefix_length_le hlower (List.prefix_append place [part])
          (Nat.le_of_lt_succ hlength)

/-- The last of one or more parts of a path decides. -/
theorem hasParents_of_foldlM {parts : List Text} (hne : parts ≠ [])
    (h : parts.foldlM tree.step place = some next) : tree.HasParents next := by
  induction parts generalizing place with
  | nil => exact absurd rfl hne
  | cons part parts ih =>
    rw [List.foldlM_cons] at h
    obtain ⟨middle, hmiddle, hrest⟩ := Option.bind_eq_some_iff.mp h
    -- the places before the last part do not matter, only that the last step was taken
    cases parts with
    | nil =>
      obtain rfl := Option.some.inj hrest
      exact hasParents_of_step hmiddle
    | cons other parts => exact ih (List.cons_ne_nil _ _) hrest

/-- A path has a part, be it an empty one. -/
theorem parts_ne_nil (path : Text) : parts path ≠ [] := by
  cases path with
  | nil => exact List.cons_ne_nil _ _
  | cons b rest =>
    unfold parts
    split
    · exact List.cons_ne_nil _ _
    · split
      · exact List.cons_ne_nil _ _
      · exact List.cons_ne_nil _ _

/-- **A path leads to a place below directories.** -/
theorem hasParents_of_locate? (h : tree.locate? path = some place) : tree.HasParents place := by
  unfold locate? at h
  dsimp only at h
  split at h
  · cases h
  · exact hasParents_of_foldlM (parts_ne_nil _) h

/-! ### Writing a file -/

/-- Writing below directories makes no directory, and removes none. -/
theorem isDirectory_put (h : tree.HasParents place) (contents : Text) (lower : Place) :
    (tree.put place contents).isDirectory lower = tree.isDirectory lower := by
  rw [Bool.eq_iff_iff]
  constructor
  · -- the only new reason to be a directory is to lie above the file
    intro hlower
    rw [isDirectory_iff] at hlower
    rcases hlower with hdirectory | ⟨file, hfile, hlength, hprefix⟩
    · exact (isDirectory_iff _ _).mpr (.inl hdirectory)
    · rcases List.mem_append.mp hfile with hfile | hdevice
      · rcases List.mem_cons.mp hfile with rfl | hold
        · exact h lower hprefix hlength
        · have hmem := List.mem_append_left tree.devices (List.mem_filter.mp hold).1
          exact (isDirectory_iff _ _).mpr (.inr ⟨file, hmem, hlength, hprefix⟩)
      · exact (isDirectory_iff _ _).mpr
          (.inr ⟨file, List.mem_append_right _ hdevice, hlength, hprefix⟩)
  · intro hlower
    rw [isDirectory_iff] at hlower ⊢
    rcases hlower with hdirectory | ⟨file, hfile, hlength, hprefix⟩
    · exact .inl hdirectory
    · rcases List.mem_append.mp hfile with hfile | hdevice
      · -- a file that is replaced stands where the new one stands
        by_cases hplace : file.1 = place
        · have hnew : (place, contents) ∈ (tree.put place contents).files := List.mem_cons_self
          rw [hplace] at hlength hprefix
          exact .inr ⟨_, List.mem_append_left _ hnew, hlength, hprefix⟩
        · have hkept : file ∈ tree.files.filter fun file => file.1 != place :=
            List.mem_filter.mpr ⟨hfile, bne_iff_ne.mpr hplace⟩
          exact .inr ⟨file, List.mem_append_left _ (List.mem_cons_of_mem _ hkept), hlength, hprefix⟩
      · exact .inr ⟨file, List.mem_append_right _ hdevice, hlength, hprefix⟩

/-- **Writing a file does not change where paths lead.** -/
theorem locate?_put (h : tree.HasParents place) (contents path : Text) :
    (tree.put place contents).locate? path = tree.locate? path := by
  have hstep : (tree.put place contents).step = tree.step := by
    funext start part
    unfold step
    rw [isDirectory_put h]
  -- a path is followed by asking for directories only, and the home stays
  unfold locate?
  rw [hstep]
  rfl

/-- There is no device and no directory at the end of the path, so that a file can be there. -/
def HasFileAt (tree : FileTree) (path : Text) : Prop :=
  ∃ place, tree.locate? path = some place ∧ tree.isDirectory place = false ∧
    tree.isDevice place = false

/-- Where a file can be, one can be written. -/
theorem HasFileAt.isWritable (h : tree.HasFileAt path) : tree.isWritable path = true := by
  obtain ⟨place, hlocate, hdirectory, -⟩ := h
  rw [FileTree.isWritable, hlocate, Option.any_some, hdirectory]
  rfl

/-- At a place without a device none is found. -/
theorem lookup_devices (h : tree.isDevice place = false) : tree.devices.lookup place = none := by
  rw [List.lookup_eq_none_iff]
  intro device hdevice
  have hne : device.1 ≠ place := by simpa using List.any_eq_false.mp h device hdevice
  exact bne_iff_ne.mpr hne.symm

/-- **A file holds what was last written**, and can be written again. -/
theorem HasFileAt.write (h : tree.HasFileAt path) (contents : Text) :
    (tree.write path contents).HasFileAt path ∧
      (tree.write path contents).read? path = some contents := by
  obtain ⟨place, hlocate, hdirectory, hdevice⟩ := h
  have hparents := hasParents_of_locate? hlocate
  have hwrite : tree.write path contents = tree.put place contents := by
    unfold FileTree.write
    rw [hlocate]
    dsimp only
    rw [hdirectory, hdevice, Bool.or_self, if_neg Bool.false_ne_true]
  -- the new file is found at the same place, which is still no directory
  have hlocate' : (tree.put place contents).locate? path = some place := by
    rw [locate?_put hparents, hlocate]
  have hdirectory' : (tree.put place contents).isDirectory place = false := by
    rw [isDirectory_put hparents, hdirectory]
  rw [hwrite]
  refine ⟨⟨place, hlocate', hdirectory', hdevice⟩, ?_⟩
  -- devices are looked up first, and there is none at this place
  have hlookup :
      (tree.devices ++ (tree.put place contents).files).lookup place = some contents := by
    rw [List.lookup_append, lookup_devices hdevice]
    exact List.lookup_cons_self
  unfold FileTree.read?
  rw [hlocate']
  dsimp only
  rw [hdirectory', if_neg Bool.false_ne_true]
  exact hlookup

end FileTree

/-! ### Tables in files -/

namespace Csv

variable {ω : Type} {tree : FileTree} {path : Text} {written : List Record}

/-- Begins a table in a file and adds batches of records to it. -/
def write (tree : FileTree) (path : Text) (batches : List (List Record)) :
    Except (Failure ω) FileTree := do
  let tree ← create tree path
  batches.foldlM (fun tree records => append tree path records) tree

/-- There is a file at the path, and it holds the table of the records. -/
structure IsTableOf (tree : FileTree) (path : Text) (records : List Record) : Prop where
  hasFileAt : tree.HasFileAt path
  read?_eq : tree.read? path = some (contents records)

/-- The lines of more records follow those of the first ones. -/
theorem lines_append (written more : List Record) :
    lines (written ++ more) = lines written ++ lines more :=
  List.flatMap_append

/-- A new table has no records, whatever the file held. -/
theorem isTableOf_create (h : tree.HasFileAt path) :
    ∃ tree', (create tree path : Except (Failure ω) FileTree) = .ok tree' ∧
      IsTableOf tree' path [] := by
  obtain ⟨hfile, hread⟩ := h.write heading
  refine ⟨tree.write path heading, if_pos h.isWritable, hfile, ?_⟩
  rw [hread, contents, lines, List.flatMap_nil, List.append_nil]

/-- Records are added behind those that the table has. -/
theorem IsTableOf.append (h : IsTableOf tree path written) (records : List Record) :
    ∃ tree', (append tree path records : Except (Failure ω) FileTree) = .ok tree' ∧
      IsTableOf tree' path (written ++ records) := by
  obtain ⟨hfile, hread⟩ := h
  obtain ⟨hfile', hread'⟩ := hfile.write ((tree.read? path).getD [] ++ lines records)
  refine ⟨_, if_pos hfile.isWritable, hfile', ?_⟩
  rw [hread', hread, Option.getD_some, contents, contents, lines_append, List.append_assoc]

/-- Batch after batch is added. -/
theorem IsTableOf.foldlM_append (h : IsTableOf tree path written)
    (batches : List (List Record)) :
    ∃ tree',
      (batches.foldlM (fun tree records => Csv.append tree path records) tree :
        Except (Failure ω) FileTree) = .ok tree' ∧
      IsTableOf tree' path (written ++ batches.flatten) := by
  -- the table after each batch is what the next one is added to
  induction batches generalizing tree written with
  | nil =>
    rw [List.flatten_nil, List.append_nil]
    exact ⟨tree, rfl, h⟩
  | cons records batches ih =>
    obtain ⟨middle, happend, hmiddle⟩ := h.append (ω := ω) records
    obtain ⟨tree', hbatches, htable⟩ := ih hmiddle
    refine ⟨tree', ?_, ?_⟩
    · rw [List.foldlM_cons, happend]
      exact hbatches
    · rwa [List.flatten_cons, ← List.append_assoc]

/-- **A file holds the table of the records of all batches.** -/
theorem isTableOf_write (h : tree.HasFileAt path) (batches : List (List Record)) :
    ∃ tree', (write tree path batches : Except (Failure ω) FileTree) = .ok tree' ∧
      IsTableOf tree' path batches.flatten := by
  obtain ⟨empty, hcreate, hempty⟩ := isTableOf_create (ω := ω) h
  obtain ⟨tree', hbatches, htable⟩ := hempty.foldlM_append (ω := ω) batches
  refine ⟨tree', ?_, htable⟩
  rw [write, hcreate]
  exact hbatches

/-- **Files of records are unambiguous.** Records that are written into a file, in any batches, are
read back from it, each with its texts and with its result or without one. So two files are equal
if and only if the same records were written into them, wherever they are and however the records
were divided into batches. -/
theorem write_unambiguous {batches : List (List Record)} (hpath : tree.HasFileAt path)
    (hstatus : ∀ batch ∈ batches, ∀ record ∈ batch, record.HasStatus) :
    ∃ tree' text,
      (write tree path batches : Except (Failure ω) FileTree) = .ok tree' ∧
      tree'.read? path = some text ∧
      readRecords? text = some batches.flatten ∧
      ∀ (other : FileTree) (otherPath : Text) (otherBatches : List (List Record)),
        other.HasFileAt otherPath →
        (∀ batch ∈ otherBatches, ∀ record ∈ batch, record.HasStatus) →
        ∃ other' otherText,
          (write other otherPath otherBatches : Except (Failure ω) FileTree) = .ok other' ∧
          other'.read? otherPath = some otherText ∧
          (otherText = text ↔ otherBatches.flatten = batches.flatten) := by
  -- a status is asked of every record, in whichever batch it is
  have hreads : ∀ {batches : List (List Record)},
      (∀ batch ∈ batches, ∀ record ∈ batch, record.HasStatus) →
        readRecords? (contents batches.flatten) = some batches.flatten := by
    intro batches hstatus
    refine readRecords?_contents fun record hrecord => ?_
    obtain ⟨batch, hbatch, hmem⟩ := List.mem_flatten.mp hrecord
    exact hstatus batch hbatch record hmem
  obtain ⟨tree', hwrite, htable⟩ := isTableOf_write (ω := ω) hpath batches
  refine ⟨tree', contents batches.flatten, hwrite, htable.read?_eq, hreads hstatus, ?_⟩
  intro other otherPath otherBatches hother hotherStatus
  obtain ⟨other', hotherWrite, hotherTable⟩ := isTableOf_write (ω := ω) hother otherBatches
  refine ⟨other', contents otherBatches.flatten, hotherWrite, hotherTable.read?_eq, ?_, ?_⟩
  · -- from equal texts the same records are read
    intro htext
    have hsame := hreads hotherStatus
    rw [htext, hreads hstatus] at hsame
    exact (Option.some.inj hsame).symm
  · intro hrecords
    rw [hrecords]

/-- Two batches: a record with an empty result and one without a result, whose texts hold commas,
quotes and line breaks. -/
def sampleBatches : List (List Record) :=
  [[⟨1, utf8 "a,\"b\"\n", some [], Record.successStatus, []⟩],
    [⟨2, utf8 "\"\"", none, Record.errorStatus, utf8 ",\r\n\""⟩]]

/-- A path in the home directory. -/
def samplePath : Text := utf8 "report.csv"

/-- The two batches are read back. -/
theorem write_unambiguous_sampleBatches :
    FileTree.empty.HasFileAt samplePath ∧
      (∀ batch ∈ sampleBatches, ∀ record ∈ batch, record.HasStatus) ∧
      ∃ tree text,
        (write .empty samplePath sampleBatches : Except (Failure Empty) FileTree) = .ok tree ∧
        tree.read? samplePath = some text ∧
        readRecords? text = some sampleBatches.flatten := by
  have hpath : FileTree.empty.HasFileAt samplePath :=
    ⟨FileTree.empty.home ++ [samplePath], by decide +kernel, by decide +kernel, by decide +kernel⟩
  have hstatus : ∀ batch ∈ sampleBatches, ∀ record ∈ batch, record.HasStatus := by
    unfold Record.HasStatus
    decide +kernel
  obtain ⟨tree, text, hwrite, hread, hrecords, -⟩ := write_unambiguous hpath hstatus
  exact ⟨hpath, hstatus, tree, text, hwrite, hread, hrecords⟩

end Csv
end DynExpr
