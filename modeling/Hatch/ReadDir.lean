import Hatch.Java

/-!
# Listing a directory

`FileHandle.ReadDir` lists the entries of a directory and calls itself on those that are
directories, with the path of its caller as the base of the names it builds. A directory that
cannot be read is a null list for the caller, which is an answer at the top and a null pointer
below.
-/

namespace Hatch.Pack

open Java

def slash : Char16 := 0x2F

structure Name where
  text : Str
  ne_nil : text ≠ []
  slash_notMem : slash ∉ text
  deriving DecidableEq

/-- What `listFiles` finds, in the order of the array; a directory may be unreadable, and
`entries` are what it holds all the same. -/
inductive Listing where
  | nil
  | file (name : Name) (rest : Listing)
  | dir (name : Name) (readable : Bool) (entries rest : Listing)

/-! ### Paths of `java.io.File` -/

def collapse : Str → Str
  | [] => []
  | c :: path => if c = slash ∧ path.head? = some slash then collapse path else c :: collapse path

/-- The path of `new File(path)`, with no slash at the end except for the root. -/
def normalize (path : Str) : Str :=
  if (collapse path).getLast? = some slash ∧ collapse path ≠ [slash] then (collapse path).dropLast
  else collapse path

def getName (path : Str) : Str := (path.reverse.takeWhile (· ≠ slash)).reverse

def resolve (parent child : Str) : Str :=
  if parent = [slash] then slash :: child else parent ++ slash :: child

def getAbsolutePath (userDir path : Str) : Str :=
  if path.head? = some slash then path else resolve userDir path

/-! ### The method -/

inductive Node where
  | missing
  | file
  | dir (readable : Bool) (entries : Listing)

/-- `ReadDir` returns null with a message in the log of `Master`, if that is set. -/
def logNull (aplog : Bool) : Except Throwable (Option (List Str)) :=
  if aplog then .ok none else .error .nullPointer

def basePathOf (path base : Str) (isTop : Bool) : Str :=
  if isTop then getName (normalize path) else base ++ slash :: getName (normalize path)

/-- The part of `ReadDir` behind the test whether the file exists. The loop over the entries is
given with the path of the directory and `basePath` as its arguments, or is missing if `listFiles`
returns null. -/
def readListed (aplog : Bool) (path base : Str) (isTop : Bool)
    (loop : Option (Str → Str → Except Throwable (List Str))) :
    Except Throwable (Option (List Str)) :=
  match loop with
  | none => logNull aplog
  | some loop => do
      let files ← loop (normalize path) (basePathOf path base isTop)
      return some files

def addAll (files : List Str) : Option (List Str) → Except Throwable (List Str)
  | none => .error .nullPointer
  | some list => .ok (files ++ list)

def readEntries (aplog : Bool) (userDir : Str) :
    Listing → Str → Str → Except Throwable (List Str)
  | .nil, _, _ => .ok []
  | .file name rest, parent, basePath => do
      let files ← readEntries aplog userDir rest parent basePath
      return (basePath ++ slash :: name.text) :: files
  | .dir name readable entries rest, parent, basePath => do
      let path := getAbsolutePath userDir (resolve parent name.text)
      let list ← readListed aplog path basePath false
        (if readable then some (readEntries aplog userDir entries) else none)
      let files ← addAll [basePath ++ slash :: name.text] list
      let more ← readEntries aplog userDir rest parent basePath
      return files ++ more

def readDir (aplog : Bool) (userDir : Str) (node : Node) (path base : Str) (isTop : Bool) :
    Except Throwable (Option (List Str)) :=
  match node with
  | .missing => logNull aplog
  | .file => readListed aplog path base isTop none
  | .dir readable entries =>
      readListed aplog path base isTop
        (if readable then some (readEntries aplog userDir entries) else none)

/-! ### What a listing should be -/

namespace Listing

def names : Listing → List Name
  | nil => []
  | file name rest => name :: rest.names
  | dir name _ _ rest => name :: rest.names

/-- No two entries of one directory have the same name. -/
def Distinct : Listing → Prop
  | nil => True
  | file name rest => name ∉ rest.names ∧ rest.Distinct
  | dir name _ entries rest => name ∉ rest.names ∧ entries.Distinct ∧ rest.Distinct

def allReadable : Listing → Bool
  | nil => true
  | file _ rest => rest.allReadable
  | dir _ readable entries rest => readable && entries.allReadable && rest.allReadable

/-- The paths of the entries below `base`, a directory before what it holds; of a directory that
cannot be read only its own path. -/
def preorder : Listing → Str → List Str
  | nil, _ => []
  | file name rest, base => (base ++ slash :: name.text) :: rest.preorder base
  | dir name readable entries rest, base =>
      (base ++ slash :: name.text) ::
        ((if readable then entries.preorder (base ++ slash :: name.text) else []) ++
          rest.preorder base)

end Listing

structure Directory where
  entries : Listing
  distinct : entries.Distinct

/-! ### Names and paths -/

theorem collapse_of_notMem {s : Str} (h : slash ∉ s) : collapse s = s := by
  induction s with
  | nil => rfl
  | cons c s ih =>
      have hc : c ≠ slash := fun he => h (he ▸ List.mem_cons_self)
      rw [collapse, if_neg (fun hs => hc hs.1), ih (fun hs => h (List.mem_cons_of_mem c hs))]

theorem collapse_append (path : Str) (name : Name) :
    ∃ front, collapse (path ++ slash :: name.text) = front ++ slash :: name.text := by
  induction path with
  | nil =>
      refine ⟨[], ?_⟩
      have hhead : name.text.head? ≠ some slash := fun hs =>
        name.slash_notMem (List.mem_of_mem_head? hs)
      rw [List.nil_append, collapse, if_neg (fun hs => hhead hs.2),
        collapse_of_notMem name.slash_notMem]
  | cons c path ih =>
      obtain ⟨front, hfront⟩ := ih
      rw [List.cons_append, collapse, hfront]
      split
      · exact ⟨front, rfl⟩
      · exact ⟨c :: front, rfl⟩

theorem getName_append (front : Str) (name : Name) :
    getName (front ++ slash :: name.text) = name.text := by
  have hname : ∀ c ∈ name.text.reverse, decide (c ≠ slash) = true := by
    intro c hc
    exact decide_eq_true fun he => name.slash_notMem (he ▸ List.mem_reverse.mp hc)
  rw [getName, List.reverse_append, List.reverse_cons, List.append_assoc,
    List.takeWhile_append_of_pos hname, List.singleton_append, List.takeWhile_cons_of_neg (by simp),
    List.append_nil, List.reverse_reverse]

/-- The name of an entry is found again in the path that is handed to the recursive call. -/
theorem getName_normalize (path : Str) (name : Name) :
    getName (normalize (path ++ slash :: name.text)) = name.text := by
  obtain ⟨front, hfront⟩ := collapse_append path name
  have hlast : (front ++ slash :: name.text).getLast? ≠ some slash := by
    intro hs
    rw [List.getLast?_append_of_ne_nil _ (List.cons_ne_nil _ _),
      List.getLast?_cons_of_ne_nil name.ne_nil] at hs
    exact name.slash_notMem (List.mem_of_getLast? hs)
  rw [normalize, hfront, if_neg (fun hs => hlast hs.1), getName_append]

theorem getName_absolute (userDir parent : Str) (name : Name) :
    getName (normalize (getAbsolutePath userDir (resolve parent name.text))) = name.text := by
  have hresolve : ∃ front, resolve parent name.text = front ++ slash :: name.text := by
    rw [resolve]
    split
    · exact ⟨[], rfl⟩
    · exact ⟨parent, rfl⟩
  obtain ⟨front, hfront⟩ := hresolve
  rw [hfront, getAbsolutePath]
  split
  · exact getName_normalize front name
  · rw [resolve]
    split
    · exact getName_normalize (slash :: front) name
    · have hassoc : userDir ++ slash :: (front ++ slash :: name.text) =
          userDir ++ slash :: front ++ slash :: name.text := by simp
      rw [hassoc]
      exact getName_normalize _ name

/-! ### The method on a tree -/

theorem readListed_none (aplog : Bool) (path base : Str) (isTop : Bool) :
    readListed aplog path base isTop none = logNull aplog := rfl

theorem readListed_some (aplog : Bool) (path base : Str) (isTop : Bool)
    (loop : Str → Str → Except Throwable (List Str)) :
    readListed aplog path base isTop (some loop) =
      (loop (normalize path) (basePathOf path base isTop)).map some :=
  bind_pure_comp some (loop (normalize path) (basePathOf path base isTop))

theorem basePathOf_below (userDir parent base : Str) (name : Name) :
    basePathOf (getAbsolutePath userDir (resolve parent name.text)) base false =
      base ++ slash :: name.text := by
  rw [basePathOf, if_neg Bool.false_ne_true, getName_absolute]

theorem readEntries_eq (aplog : Bool) (userDir : Str) (l : Listing) (parent basePath : Str) :
    readEntries aplog userDir l parent basePath =
      if l.allReadable then .ok (l.preorder basePath) else .error .nullPointer := by
  induction l generalizing parent basePath with
  | nil => rfl
  | file name rest ih =>
      rw [readEntries, ih, Listing.allReadable, Listing.preorder]
      cases rest.allReadable with
      | true => rfl
      | false => rfl
  | dir name readable entries rest ihe ihr =>
      rw [readEntries, Listing.allReadable, Listing.preorder]
      cases readable with
      | false =>
          rw [if_neg Bool.false_ne_true, readListed_none]
          cases aplog with
          | true => rfl
          | false => rfl
      | true =>
          rw [if_pos rfl, if_pos rfl, readListed_some, basePathOf_below, ihe, ihr]
          cases entries.allReadable with
          | false => rfl
          | true =>
              cases rest.allReadable with
              | true => rfl
              | false => rfl

/-! ### Every entry once -/

/-- A path in a listing continues that of one of the entries. -/
theorem mem_preorder {l : Listing} {base path : Str} (h : path ∈ l.preorder base) :
    ∃ name ∈ l.names, ∃ below, path = base ++ slash :: (name.text ++ below) ∧
      (below = [] ∨ below.head? = some slash) := by
  induction l generalizing base with
  | nil => cases h
  | file name rest ih =>
      rcases List.mem_cons.mp h with rfl | hrest
      · exact ⟨name, List.mem_cons_self, [], by rw [List.append_nil], .inl rfl⟩
      · obtain ⟨n, hn, hpath⟩ := ih hrest
        exact ⟨n, List.mem_cons_of_mem _ hn, hpath⟩
  | dir name readable entries rest ihe ihr =>
      rcases List.mem_cons.mp h with rfl | hbelow
      · exact ⟨name, List.mem_cons_self, [], by rw [List.append_nil], .inl rfl⟩
      rcases List.mem_append.mp hbelow with hentries | hrest
      · cases readable with
        | false => cases hentries
        | true =>
            obtain ⟨n, -, below, rfl, -⟩ := ihe hentries
            refine ⟨name, List.mem_cons_self, slash :: (n.text ++ below), ?_, .inr rfl⟩
            simp
      · obtain ⟨n, hn, hpath⟩ := ihr hrest
        exact ⟨n, List.mem_cons_of_mem _ hn, hpath⟩

/-- The first component of a path is the text up to the next slash. -/
theorem takeWhile_name (name : Name) {below : Str}
    (h : below = [] ∨ below.head? = some slash) :
    (name.text ++ below).takeWhile (· ≠ slash) = name.text := by
  have hname : ∀ c ∈ name.text, decide (c ≠ slash) = true := fun c hc =>
    decide_eq_true fun he => name.slash_notMem (he ▸ hc)
  rw [List.takeWhile_append_of_pos hname]
  cases below with
  | nil => exact List.append_nil _
  | cons c below =>
      obtain rfl : c = slash := by simpa using h
      rw [List.takeWhile_cons_of_neg (by simp), List.append_nil]

theorem name_eq_of_path {base : Str} {n m : Name} {below below' : Str}
    (hpath : base ++ slash :: (n.text ++ below) = base ++ slash :: (m.text ++ below'))
    (h : below = [] ∨ below.head? = some slash) (h' : below' = [] ∨ below'.head? = some slash) :
    n = m := by
  have htail : n.text ++ below = m.text ++ below' :=
    (List.cons.inj (List.append_cancel_left hpath)).2
  have htext : n.text = m.text := by
    rw [← takeWhile_name n h, ← takeWhile_name m h', htail]
  cases n
  cases m
  cases htext
  rfl

/-- The path of an entry, or one below it, is not in the listing of its later siblings. -/
theorem notMem_preorder {rest : Listing} (base : Str) {below : Str} {name : Name}
    (hname : name ∉ rest.names) (h : below = [] ∨ below.head? = some slash) :
    base ++ slash :: (name.text ++ below) ∉ rest.preorder base := by
  intro hmem
  obtain ⟨m, hm, below', hpath, h'⟩ := mem_preorder hmem
  exact hname (name_eq_of_path hpath h h' ▸ hm)

theorem nodup_preorder {l : Listing} (hl : l.Distinct) (base : Str) : (l.preorder base).Nodup := by
  induction l generalizing base with
  | nil => exact List.nodup_nil
  | file name rest ih =>
      have hfirst := notMem_preorder base hl.1 (.inl rfl)
      rw [List.append_nil] at hfirst
      exact List.nodup_cons.mpr ⟨hfirst, ih hl.2 base⟩
  | dir name readable entries rest ihe ihr =>
      obtain ⟨hname, hentries, hrest⟩ := hl
      have hfirst := notMem_preorder base hname (.inl rfl)
      rw [List.append_nil] at hfirst
      cases readable with
      | false => exact List.nodup_cons.mpr ⟨hfirst, ihr hrest base⟩
      | true =>
          have hbelow {path : Str} (hp : path ∈ entries.preorder (base ++ slash :: name.text)) :
              ∃ below, path = base ++ slash :: (name.text ++ slash :: below) := by
            obtain ⟨m, -, below, rfl, -⟩ := mem_preorder hp
            exact ⟨m.text ++ below, by simp⟩
          refine List.nodup_cons.mpr ⟨?_, List.nodup_append.mpr
            ⟨ihe hentries _, ihr hrest base, ?_⟩⟩
          · intro hmem
            rcases List.mem_append.mp hmem with hp | hp
            · -- a path below the directory is longer than its own
              obtain ⟨below, heq⟩ := hbelow hp
              have hlen := congrArg List.length heq
              simp at hlen
            · exact hfirst hp
          · rintro path hp other hr rfl
            obtain ⟨below, rfl⟩ := hbelow hp
            exact notMem_preorder base hname (.inr rfl) hr

/-- A readable directory is listed as it should be, with every entry once, just if every directory
below it is readable. -/
theorem readDir_complete_iff (d : Directory) (aplog : Bool) (userDir path base : Str) :
    (d.entries.preorder (getName (normalize path))).Nodup ∧
      (readDir aplog userDir (.dir true d.entries) path base true =
          .ok (some (d.entries.preorder (getName (normalize path)))) ↔
        d.entries.allReadable = true) := by
  refine ⟨nodup_preorder d.distinct _, ?_⟩
  rw [readDir, if_pos rfl, readListed_some, readEntries_eq, basePathOf, if_pos rfl]
  cases d.entries.allReadable with
  | true => exact iff_of_true rfl rfl
  | false => exact iff_of_false (fun h => by cases h) Bool.false_ne_true

def lockedName : Name := ⟨literal ['l'], by decide, by decide⟩

/-- A directory with nothing but a directory that cannot be read. -/
theorem readDir_throws :
    (Listing.dir lockedName false .nil .nil).preorder (literal ['t']) =
        [literal ['t', '/', 'l']] ∧
      readDir true (literal ['/']) (.dir true (.dir lockedName false .nil .nil)) (literal ['t']) []
        true = .error .nullPointer := by
  decide +kernel

end Hatch.Pack
