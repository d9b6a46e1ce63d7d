import SchemaAlgebra.Command.Load
import Mathlib.Data.List.Nodup
import Mathlib.Data.String.Basic

/-!
# Walks through file trees

What a tree holds can be said without a walk: `FileTree.get?` gives what stands under a list of
names.  A walk meets the same things one after the other, and this module brings the two together.

`FileTree.listing` is the link: the files of a tree in the order of the walk, each with the names
that lead to it.  Its names go up strictly in the lexicographic order, so it has every file once, and
a directory's files come where the directory's name stands among the names beside it.

## Main statements

* `FileTree.mem_listing_iff` and `FileTree.pairwise_listing`: the listing has the files that stand
  somewhere in the tree, in depth-first order of their names.
* `FileTree.filterMap_wanted_visits`: the wanted files that a walk meets are those of the listing.
* `FileTree.filterMap_error_visits_eq_nil_iff`: a walk meets no error exactly in a tree that has
  nothing which cannot be looked at.
* `Found.standsFor_files_ofPath`: what is found at a listed path is what the path stands for.
-/

namespace SchemaAlgebra

namespace FileTree

variable {α β γ : Type}

/-- Induction on the nesting of a tree. -/
theorem nested_induction {motive : FileTree α → Prop} (file : ∀ content, motive (.file content))
    (directory : ∀ entries, (∀ entry ∈ entries, motive entry.2) → motive (.directory entries))
    (closed : ∀ reason, motive (.closed reason)) (device : motive .device)
    (unreadable : ∀ reason, motive (.unreadable reason)) (tree : FileTree α) : motive tree :=
  @FileTree.rec α motive (fun entries => ∀ entry ∈ entries, motive entry.2)
    (fun entry => motive entry.2) file directory closed device unreadable
    (List.forall_mem_nil _) (fun _ _ hfirst hrest => List.forall_mem_cons.mpr ⟨hfirst, hrest⟩)
    (fun _ _ h => h) tree

/-! ## What stands under a list of names -/

theorem mem_of_lookup_eq_some {entries : List (String × β)} {name : String} {found : β}
    (h : entries.lookup name = some found) : (name, found) ∈ entries := by
  obtain ⟨front, back, rfl, -⟩ := List.lookup_eq_some_iff.mp h
  exact List.mem_append_right front List.mem_cons_self

/-- Under distinct names, each entry is found by its name. -/
theorem lookup_eq_some_of_mem {entries : List (String × β)} {name : String} {found : β}
    (hnodup : (entries.map Prod.fst).Nodup) (h : (name, found) ∈ entries) :
    entries.lookup name = some found := by
  obtain ⟨front, back, rfl⟩ := List.append_of_mem h
  refine List.lookup_eq_some_iff.mpr ⟨front, back, rfl, fun entry hentry => bne_iff_ne.mpr ?_⟩
  rw [List.map_append, List.map_cons] at hnodup
  rintro rfl
  exact (List.nodup_append.mp hnodup).2.2 _ (List.mem_map_of_mem hentry) _ List.mem_cons_self rfl

theorem get?_append (front back : List String) (tree : FileTree α) :
    tree.get? (front ++ back) = (tree.get? front).bind (get? back) := by
  induction front generalizing tree with
  | nil => rfl
  | cons name rest ih =>
    simp only [List.cons_append, get?]
    cases tree.entry? name with
    | none => rfl
    | some below => exact ih below

/-- A property of everything that stands somewhere in a tree. -/
def Everywhere (p : FileTree α → Prop) (tree : FileTree α) : Prop :=
  ∀ names found, tree.get? names = some found → p found

/-- Under distinct names, what holds everywhere in the entries of a directory and of the directory
itself holds everywhere in the directory. -/
theorem everywhere_directory_iff {p : FileTree α → Prop} {entries : List (String × FileTree α)}
    (hnodup : (entries.map Prod.fst).Nodup) :
    Everywhere p (.directory entries) ↔
      p (.directory entries) ∧ ∀ entry ∈ entries, entry.2.Everywhere p := by
  constructor
  · intro h
    refine ⟨h [] _ rfl, fun entry hentry names found hfound => ?_⟩
    refine h (entry.1 :: names) found ?_
    simpa [get?, entry?, lookup_eq_some_of_mem hnodup hentry] using hfound
  · rintro ⟨hself, hentries⟩ names found hfound
    cases names with
    | nil =>
      obtain rfl : FileTree.directory entries = found := Option.some.inj hfound
      exact hself
    | cons name rest =>
      -- Whatever a look-up finds is one of the entries, also where names are repeated.
      obtain ⟨below, hbelow, hrest⟩ := Option.bind_eq_some_iff.mp hfound
      exact hentries _ (mem_of_lookup_eq_some hbelow) rest found hrest

/-- In what has no entries, everywhere is here. -/
theorem everywhere_iff_of_leaf {p : FileTree α → Prop} {tree : FileTree α}
    (hleaf : ∀ name, tree.entry? name = none) : tree.Everywhere p ↔ p tree := by
  refine ⟨fun h => h [] tree rfl, fun h names found hfound => ?_⟩
  cases names with
  | nil =>
    obtain rfl : tree = found := Option.some.inj hfound
    exact h
  | cons name rest => simp [get?, hleaf] at hfound

theorem Everywhere.get? {p : FileTree α → Prop} {tree below : FileTree α} (h : tree.Everywhere p)
    {names : List String} (hbelow : tree.get? names = some below) : below.Everywhere p := by
  intro rest found hfound
  exact h (names ++ rest) found (by rw [get?_append, hbelow]; exact hfound)

/-- No entries of a directory have the same name. -/
def NamesOnce : FileTree α → Prop
  | .directory entries => (entries.map Prod.fst).Nodup
  | _ => True

/-- No directory of a tree has two entries of one name. -/
def Distinct (tree : FileTree α) : Prop := tree.Everywhere NamesOnce

/-- Whether a walk can look at a place and, if it is a directory, at what is in it. -/
def IsOpen : FileTree α → Prop
  | .closed _ | .unreadable _ => False
  | _ => True

/-- A walk can look at everything at and below a tree. -/
def Walkable (tree : FileTree α) : Prop := tree.Everywhere IsOpen

theorem distinct_of_leaf {tree : FileTree α} (hleaf : ∀ name, tree.entry? name = none)
    (hself : tree.NamesOnce) : tree.Distinct := (everywhere_iff_of_leaf hleaf).mpr hself

@[simp] theorem distinct_file (content : α) : Distinct (.file content) :=
  distinct_of_leaf (fun _ => rfl) trivial

theorem distinct_directory_iff {entries : List (String × FileTree α)} :
    Distinct (.directory entries) ↔
      (entries.map Prod.fst).Nodup ∧ ∀ entry ∈ entries, entry.2.Distinct :=
  ⟨fun h => (everywhere_directory_iff (h [] _ rfl)).mp h,
    fun h => (everywhere_directory_iff h.1).mpr h⟩

theorem Distinct.nodup {entries : List (String × FileTree α)} (h : Distinct (.directory entries)) :
    (entries.map Prod.fst).Nodup := (distinct_directory_iff.mp h).1

theorem Distinct.of_mem {entries : List (String × FileTree α)} (h : Distinct (.directory entries)) :
    ∀ entry ∈ entries, entry.2.Distinct := (distinct_directory_iff.mp h).2

/-! ## Entries in order -/

theorem sortEntries_perm (entries : List (String × β)) : (sortEntries entries).Perm entries :=
  List.mergeSort_perm _ _

theorem mem_sortEntries {entries : List (String × β)} {entry : String × β} :
    entry ∈ sortEntries entries ↔ entry ∈ entries := (sortEntries_perm entries).mem_iff

/-- Entries can be worked on before or after they are sorted, as long as they keep their names. -/
theorem sortEntries_map (f : String × β → γ) (entries : List (String × β)) :
    sortEntries (entries.map fun entry => (entry.1, f entry)) =
      (sortEntries entries).map fun entry => (entry.1, f entry) := by
  unfold sortEntries
  rw [List.map_mergeSort]
  exact fun _ _ _ _ => rfl

/-- Distinct names go up strictly once they are sorted. -/
theorem pairwise_sortEntries {entries : List (String × β)}
    (hnodup : (entries.map Prod.fst).Nodup) :
    (sortEntries entries).Pairwise fun first second => first.1 < second.1 := by
  have hle : (sortEntries entries).Pairwise fun first second => first.1 ≤ second.1 := by
    refine (List.pairwise_mergeSort ?_ ?_ entries).imp of_decide_eq_true
    · intro first second third hfirst hsecond
      exact decide_eq_true (le_trans (of_decide_eq_true hfirst) (of_decide_eq_true hsecond))
    · intro first second
      simpa using le_total first.1 second.1
  have hne : (sortEntries entries).Pairwise fun first second => first.1 ≠ second.1 :=
    List.pairwise_map.mp (((sortEntries_perm entries).map Prod.fst).nodup_iff.mpr hnodup)
  exact hle.imp₂ (fun _ _ => lt_of_le_of_ne) hne

/-! ## The files of a tree -/

mutual

/-- The files at and below a tree in the order of a walk, each with the names that lead to it. -/
def listing : FileTree α → List (List String × α)
  | .file content => [([], content)]
  | .directory entries => (sortEntries (entryListings entries)).flatMap Prod.snd
  | .closed _ | .device | .unreadable _ => []

/-- The files of each of the entries of a directory. -/
def entryListings : List (String × FileTree α) → List (String × List (List String × α))
  | [] => []
  | (name, tree) :: rest =>
    (name, tree.listing.map (Prod.map (name :: ·) id)) :: entryListings rest

end

theorem entryListings_eq_map (entries : List (String × FileTree α)) :
    entryListings entries =
      entries.map fun entry => (entry.1, entry.2.listing.map (Prod.map (entry.1 :: ·) id)) := by
  induction entries with
  | nil => rfl
  | cons entry rest ih => rw [entryListings, ih, List.map_cons]

theorem listing_directory (entries : List (String × FileTree α)) :
    listing (.directory entries) = (sortEntries entries).flatMap fun entry =>
      entry.2.listing.map (Prod.map (entry.1 :: ·) id) := by
  rw [listing, entryListings_eq_map, sortEntries_map, List.flatMap_map]

/-- A file of a directory is a file of one of its entries, with that entry's name in front. -/
theorem mem_listing_directory {entries : List (String × FileTree α)} {names : List String}
    {content : α} :
    (names, content) ∈ listing (.directory entries) ↔
      ∃ entry ∈ entries, ∃ rest, names = entry.1 :: rest ∧ (rest, content) ∈ entry.2.listing := by
  simp only [listing_directory, List.mem_flatMap, mem_sortEntries, List.mem_map, Prod.exists,
    Prod.map_apply, id_eq, Prod.mk.injEq]
  constructor
  · rintro ⟨name, tree, hentry, rest, _, hrest, rfl, rfl⟩
    exact ⟨name, tree, hentry, rest, rfl, hrest⟩
  · rintro ⟨name, tree, hentry, rest, rfl, hrest⟩
    exact ⟨name, tree, hentry, rest, content, hrest, rfl, rfl⟩

/-- The listing has the files that stand somewhere in the tree. -/
theorem mem_listing_iff {tree : FileTree α} (hdistinct : tree.Distinct) {names : List String}
    {content : α} : (names, content) ∈ tree.listing ↔ tree.get? names = some (.file content) := by
  induction tree using nested_induction generalizing names with
  | file known => cases names <;> simp [listing, get?, entry?, eq_comm]
  | directory entries ih =>
    rw [mem_listing_directory]
    constructor
    · rintro ⟨entry, hentry, rest, rfl, hrest⟩
      have hfound := (ih entry hentry (hdistinct.of_mem entry hentry)).mp hrest
      simpa [get?, entry?, lookup_eq_some_of_mem hdistinct.nodup hentry] using hfound
    · intro h
      cases names with
      | nil => cases h
      | cons name rest =>
        obtain ⟨below, hbelow, hrest⟩ := Option.bind_eq_some_iff.mp h
        have hentry := mem_of_lookup_eq_some hbelow
        exact ⟨_, hentry, rest, rfl, (ih _ hentry (hdistinct.of_mem _ hentry)).mpr hrest⟩
  | closed reason => cases names <;> simp [listing, get?, entry?]
  | device => cases names <;> simp [listing, get?, entry?]
  | unreadable reason => cases names <;> simp [listing, get?, entry?]

/-- The names of the files go up strictly, so no file is listed twice. -/
theorem pairwise_listing {tree : FileTree α} (hdistinct : tree.Distinct) :
    tree.listing.Pairwise fun first second => first.1 < second.1 := by
  induction tree using nested_induction with
  | file content => exact List.pairwise_singleton _ _
  | directory entries ih =>
    rw [listing_directory, List.pairwise_flatMap]
    constructor
    -- The files of one entry have the entry's name in common.
    · intro entry hentry
      have hentry := mem_sortEntries.mp hentry
      refine List.pairwise_map.mpr ((ih entry hentry (hdistinct.of_mem entry hentry)).imp ?_)
      exact fun hlt => List.cons_lt_cons_iff.mpr (.inr ⟨rfl, hlt⟩)
    · refine (pairwise_sortEntries hdistinct.nodup).imp fun {first second} hlt => ?_
      intro file hfile other hother
      obtain ⟨below, -, rfl⟩ := List.mem_map.mp hfile
      obtain ⟨beside, -, rfl⟩ := List.mem_map.mp hother
      exact List.cons_lt_cons_iff.mpr (.inl hlt)
  | closed reason => exact List.Pairwise.nil
  | device => exact List.Pairwise.nil
  | unreadable reason => exact List.Pairwise.nil

/-! ## What a walk meets -/

theorem entryVisits_eq_map (path : String) (entries : List (String × FileTree α)) :
    entryVisits path entries = entries.map fun entry =>
      (entry.1, entry.2.visits (joinPath path entry.1) entry.1) := by
  induction entries with
  | nil => rfl
  | cons entry rest ih => rw [entryVisits, ih, List.map_cons]

theorem visits_directory (path name : String) (entries : List (String × FileTree α)) :
    visits path name (.directory entries) = .other :: (sortEntries entries).flatMap fun entry =>
      entry.2.visits (joinPath path entry.1) entry.1 := by
  rw [visits, entryVisits_eq_map, sortEntries_map, List.flatMap_map]

/-- The wanted files that a walk meets are those of the listing, in its order.  The name that counts
is the last one; a file at the root has the name that the tree stands under. -/
theorem filterMap_wanted_visits (extensions : List String) (path name : String)
    (tree : FileTree α) :
    (tree.visits path name).filterMap (Found.wanted? extensions) =
      (tree.listing.filter fun file => isWanted extensions (file.1.getLastD name)).map Prod.snd := by
  induction tree using nested_induction generalizing path name with
  | file content =>
    cases h : isWanted extensions name <;> simp [visits, listing, Found.wanted?, h]
  | directory entries ih =>
    rw [visits_directory, listing_directory, List.filterMap_cons_none rfl, List.filterMap_flatMap,
      List.filter_flatMap, List.map_flatMap]
    refine List.flatMap_congr fun entry hentry => ?_
    -- The last of a file's names with the entry's in front is the last one below the entry, or the
    -- entry's own.
    rw [ih entry (mem_sortEntries.mp hentry), List.filter_map, List.map_map]
    simp only [Function.comp_def, Prod.map_fst, Prod.map_snd, List.getLastD_cons, id_eq]
  | closed reason => rfl
  | device => rfl
  | unreadable reason => rfl

/-- A walk meets no error exactly if everything can be looked at. -/
theorem filterMap_error_visits_eq_nil_iff {tree : FileTree α} (hdistinct : tree.Distinct)
    (path name : String) :
    (tree.visits path name).filterMap Found.error? = [] ↔ tree.Walkable := by
  induction tree using nested_induction generalizing path name with
  | file content =>
    rw [Walkable, everywhere_iff_of_leaf fun _ => rfl]
    simp [visits, Found.error?, IsOpen]
  | directory entries ih =>
    rw [visits_directory, List.filterMap_cons_none rfl, List.filterMap_flatMap,
      List.flatMap_eq_nil_iff, Walkable, everywhere_directory_iff hdistinct.nodup]
    simp only [mem_sortEntries, IsOpen, true_and]
    refine forall₂_congr fun entry hentry => ?_
    exact ih entry hentry (hdistinct.of_mem entry hentry) _ _
  | closed reason =>
    rw [Walkable, everywhere_iff_of_leaf fun _ => rfl]
    simp [visits, Found.error?, IsOpen]
  | device =>
    rw [Walkable, everywhere_iff_of_leaf fun _ => rfl]
    simp [visits, Found.error?, IsOpen]
  | unreadable reason =>
    rw [Walkable, everywhere_iff_of_leaf fun _ => rfl]
    simp [visits, Found.error?, IsOpen]

/-! ## What a listed path stands for -/

/-- The files that a listed tree stands for, in order.  A file stands for itself, whatever its name;
anything else stands for the files below it, at any depth, whose names have a wanted extension: each
of them once, in the depth-first order of their names. -/
inductive StandsFor (extensions : List String) : FileTree α → List α → Prop where
  | itself (content : α) : StandsFor extensions (.file content) [content]
  | below {tree : FileTree α} {files : List (List String × α)}
      (other : ∀ content, tree ≠ .file content)
      (ordered : files.Pairwise fun first second => first.1 < second.1)
      (complete : ∀ names content, (names, content) ∈ files ↔
        tree.get? names = some (.file content) ∧ isWanted extensions (names.getLastD "")) :
      StandsFor extensions tree (files.map Prod.snd)

/-- A tree stands for one list of files only. -/
theorem StandsFor.unique {extensions : List String} {tree : FileTree α} {files others : List α}
    (h : StandsFor extensions tree files) (hothers : StandsFor extensions tree others) :
    files = others := by
  cases h with
  | itself content =>
    cases hothers with
    | itself => rfl
    | below hother => exact absurd rfl (hother content)
  | @below _ files hother hordered hcomplete =>
    cases hothers with
    | itself content => exact absurd rfl (hother content)
    | @below _ others _ hordered' hcomplete' =>
      have hnodup {listed : List (List String × α)}
          (hlisted : listed.Pairwise fun first second => first.1 < second.1) : listed.Nodup := by
        refine List.Pairwise.imp (fun {first second} hlt => ?_) hlisted
        rintro rfl
        exact List.lt_irrefl _ hlt
      -- Both have the same files, and the order leaves each of them one place.
      have hperm : files.Perm others := by
        refine (List.perm_ext_iff_of_nodup (hnodup hordered) (hnodup hordered')).mpr fun file => ?_
        exact (hcomplete file.1 file.2).trans (hcomplete' file.1 file.2).symm
      have heq : files = others :=
        hperm.eq_of_pairwise (fun _ _ _ _ hlt hgt => absurd hgt (lt_asymm hlt)) hordered hordered'
      rw [heq]

end FileTree

namespace Found

variable {α : Type}

/-- What is found at a listed path is what the tree there stands for: a file comes from the walk or
from the listing itself, but not from both. -/
theorem standsFor_files_ofPath (extensions : List String) (path : String) {tree : FileTree α}
    (hdistinct : tree.Distinct) : tree.StandsFor extensions (ofPath extensions path tree).files := by
  by_cases hfile : ∃ content, tree = .file content
  · obtain ⟨content, rfl⟩ := hfile
    have hfiles : (ofPath extensions path (.file content)).files = [content] := by
      cases h : isWanted extensions (fileName path) <;>
        simp [ofPath, FileTree.visits, wanted?, leftOut?, h]
    exact hfiles ▸ .itself content
  · have hother : ∀ content, tree ≠ .file content := fun content h => hfile ⟨content, h⟩
    have hleftOut : leftOut? extensions (fileName path) tree = none := by
      cases tree with
      | file content => exact absurd rfl (hother content)
      | _ => rfl
    have hfiles : (ofPath extensions path tree).files = (tree.listing.filter fun file =>
        isWanted extensions (file.1.getLastD "")).map Prod.snd := by
      simp only [ofPath, hleftOut, Option.toList_none, List.append_nil,
        FileTree.filterMap_wanted_visits]
      congr 1
      refine List.filter_congr fun file hmem => ?_
      -- A file that is no tree of its own has names, so the name of the tree does not matter.
      cases hnames : file.1 with
      | nil =>
        have hget := (FileTree.mem_listing_iff hdistinct).mp hmem
        rw [hnames] at hget
        exact absurd (Option.some.inj hget) (hother file.2)
      | cons first rest => rfl
    rw [hfiles]
    refine .below hother ((FileTree.pairwise_listing hdistinct).filter _) fun names content => ?_
    rw [List.mem_filter, FileTree.mem_listing_iff hdistinct]

/-- Directories below come in the order of their names, with the files beside them. -/
example : (ofPath ["g"] "l" (.directory [("b.g", .file 2), ("a", .directory [("c.g", .file 1)]),
    ("n", .file 3)])).files = [1, 2] := by cbv

/-- Looking at a listed path gives no error exactly if everything there can be looked at. -/
theorem errors_ofPath_eq_nil_iff (extensions : List String) (path : String) {tree : FileTree α}
    (hdistinct : tree.Distinct) : (ofPath extensions path tree).errors = [] ↔ tree.Walkable :=
  FileTree.filterMap_error_visits_eq_nil_iff hdistinct path (fileName path)

end Found

end SchemaAlgebra
