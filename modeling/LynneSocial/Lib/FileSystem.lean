import Mathlib.Data.List.Basic
import Mathlib.Logic.Function.Basic
import Mathlib.Tactic.Common

/-!
# A file system of directories and regular files

A path is a byte string. It is resolved from the root or the working directory,
one name after the other, and every name but the last has to be an existing
directory, also before a `..`. There are no links. Creating a node fails where
it is denied, which stands for permissions, quotas and the like.
-/
namespace FileSystem

abbrev Name := List UInt8

/-- Where a node is: the names from the root down to it. -/
abbrev Loc := List Name

inductive Node where
  | dir
  | file (content : List UInt8)
deriving DecidableEq

/-- The bytes of a file; anything else has none. -/
def contentOf : Option Node → List UInt8
  | some (.file content) => content
  | _ => []

structure Disk where
  nodes : Loc → Option Node := fun _ => none
  cwd : Loc := []
  denied : Loc → Bool := fun _ => false

def slash : UInt8 := 47

def isAbsolute (p : List UInt8) : Bool := p.head? == some slash

/-- `p / q` of two paths. -/
def append (p q : List UInt8) : List UInt8 :=
  if isAbsolute q then q
  else if p = [] ∨ p.getLast? = some slash then p ++ q
  else p ++ slash :: q

def components (p : List UInt8) : List Name := (p.splitOn slash).filter (· ≠ [])

/-- One name other than `.` and `..`. -/
structure Plain (d : List UInt8) : Prop where
  nonempty : d ≠ []
  one : slash ∉ d
  nul : 0 ∉ d
  dot : d ≠ [46]
  dotdot : d ≠ [46, 46]

instance (d : List UInt8) : Decidable (Plain d) :=
  decidable_of_iff (d ≠ [] ∧ slash ∉ d ∧ 0 ∉ d ∧ d ≠ [46] ∧ d ≠ [46, 46])
    ⟨fun ⟨a, b, c, d, e⟩ => ⟨a, b, c, d, e⟩, fun ⟨a, b, c, d, e⟩ => ⟨a, b, c, d, e⟩⟩

theorem components_nil : components [] = [] := by
  simp [components]

theorem components_append_slash (p q : List UInt8) :
    components (p ++ slash :: q) = components p ++ components q := by
  simp [components, List.splitOn_append_cons_self]

theorem components_append {p q : List UInt8} (hq : isAbsolute q = false) :
    components (append p q) = components p ++ components q := by
  unfold append
  simp only [hq, Bool.false_eq_true, if_false]
  split
  · rename_i h
    rcases h with rfl | h
    · simp [components_nil]
    · obtain ⟨r, rfl⟩ := List.getLast?_eq_some_iff.mp h
      rw [List.append_assoc, List.singleton_append, components_append_slash,
        components_append_slash, components_nil, List.append_nil]
  · exact components_append_slash p q

theorem isAbsolute_append {p q : List UInt8} (hq : isAbsolute q = false) :
    isAbsolute (append p q) = isAbsolute p := by
  unfold append
  simp only [hq, Bool.false_eq_true, if_false]
  cases p with
  | nil => simpa [isAbsolute] using hq
  | cons a p => split <;> rfl

namespace Plain
variable {d : List UInt8}

theorem components (h : Plain d) : components d = [d] := by
  simp [FileSystem.components, List.splitOn_eq_singleton h.one, h.nonempty]

theorem isAbsolute (h : Plain d) : isAbsolute d = false := by
  cases d with
  | nil => rfl
  | cons a d =>
      have : a ≠ slash := fun e => h.one (e ▸ List.mem_cons_self)
      simpa [FileSystem.isAbsolute] using this

end Plain

namespace Disk

/-- The root is always there. -/
def isDir (fs : Disk) (l : Loc) : Bool := l == [] || fs.nodes l == some .dir

def advance (cur : Loc) (c : Name) : Loc :=
  if c = [46] then cur else if c = [46, 46] then cur.dropLast else cur ++ [c]

def walk (fs : Disk) (cur : Loc) : List Name → Option Loc
  | [] => some cur
  | c :: cs => if fs.isDir cur then fs.walk (advance cur c) cs else none

def origin (fs : Disk) (p : List UInt8) : Loc := if isAbsolute p then [] else fs.cwd

def resolve (fs : Disk) (p : List UInt8) : Option Loc := fs.walk (fs.origin p) (components p)

def nodeAt (fs : Disk) (l : Loc) : Option Node := if l = [] then some .dir else fs.nodes l

/-- `stat`: what a path names, if anything. -/
def status (fs : Disk) (p : List UInt8) : Option Node := (fs.resolve p).bind fs.nodeAt

def set (fs : Disk) (l : Loc) (n : Node) : Disk :=
  { fs with nodes := Function.update fs.nodes l (some n) }

/-- Every directory along a list of names is made if it is missing. -/
def mkdirs (fs : Disk) (cur : Loc) : List Name → Disk × Option Loc
  | [] => (fs, some cur)
  | c :: cs =>
    if fs.isDir cur then
      if fs.isDir (advance cur c) then fs.mkdirs (advance cur c) cs
      else if (fs.nodes (advance cur c)).isSome || fs.denied (advance cur c) then (fs, none)
      else (fs.set (advance cur c) .dir).mkdirs (advance cur c) cs
    else (fs, none)

/-- `create_directories`. -/
def createDirectories (fs : Disk) (p : List UInt8) : Disk × Option Loc :=
  fs.mkdirs (fs.origin p) (components p)

/-- Opens a file for appending to what `keep` leaves of its content; a missing file is made. -/
def openWith (keep : List UInt8 → List UInt8) (fs : Disk) (p : List UInt8) : Disk × Option Loc :=
  match fs.resolve p with
  | none => (fs, none)
  | some l =>
    if fs.denied l then (fs, none)
    else match fs.nodeAt l with
      | some .dir => (fs, none)
      | some (.file content) => (fs.set l (.file (keep content)), some l)
      | none => (fs.set l (.file []), some l)

def openAppend (fs : Disk) (p : List UInt8) : Disk × Option Loc := fs.openWith id p

def openTruncate (fs : Disk) (p : List UInt8) : Disk × Option Loc := fs.openWith (fun _ => []) p

/-- Writing to a stream; a stream that did not open takes nothing. -/
def write (fs : Disk) (out : Option Loc) (s : List UInt8) : Disk :=
  match out with
  | none => fs
  | some l =>
    match fs.nodes l with
    | some (.file content) => fs.set l (.file (content ++ s))
    | _ => fs

@[simp] theorem set_nodes (fs : Disk) (l : Loc) (n : Node) :
    (fs.set l n).nodes = Function.update fs.nodes l (some n) := rfl
@[simp] theorem set_cwd (fs : Disk) (l : Loc) (n : Node) : (fs.set l n).cwd = fs.cwd := rfl
@[simp] theorem set_denied (fs : Disk) (l : Loc) (n : Node) :
    (fs.set l n).denied = fs.denied := rfl

theorem set_set (fs : Disk) (l : Loc) (m n : Node) : (fs.set l m).set l n = fs.set l n := by
  simp [set]

theorem write_set (fs : Disk) (l : Loc) (x s : List UInt8) :
    (fs.set l (.file x)).write (some l) s = fs.set l (.file (x ++ s)) := by
  simp [write, set_set]

theorem write_nil (fs : Disk) (out : Option Loc) : fs.write out [] = fs := by
  unfold write
  split
  · rfl
  · split
    · rename_i h
      rw [List.append_nil, set, ← h, Function.update_eq_self]
    · rfl

theorem write_write (fs : Disk) (out : Option Loc) (x y : List UInt8) :
    (fs.write out x).write out y = fs.write out (x ++ y) := by
  cases out with
  | none => rfl
  | some l =>
      cases h : fs.nodes l with
      | none => simp [write, h]
      | some n =>
          cases n with
          | dir => simp [write, h]
          | file z => simp [write, h, set_set]

structure Extends (fs gs : Disk) : Prop where
  nodes : ∀ l, gs.nodes l = fs.nodes l ∨ fs.nodes l = none ∧ gs.nodes l = some .dir
  cwd : gs.cwd = fs.cwd
  denied : gs.denied = fs.denied

theorem Extends.refl (fs : Disk) : Extends fs fs := ⟨fun _ => .inl rfl, rfl, rfl⟩

theorem Extends.trans {fs gs hs : Disk} (h : Extends fs gs) (k : Extends gs hs) :
    Extends fs hs := by
  refine ⟨fun l => ?_, k.cwd.trans h.cwd, k.denied.trans h.denied⟩
  rcases h.nodes l with hl | ⟨hl, hl'⟩ <;> rcases k.nodes l with kl | ⟨kl, kl'⟩
  · exact .inl (kl.trans hl)
  · exact .inr ⟨hl ▸ kl, kl'⟩
  · exact .inr ⟨hl, kl.trans hl'⟩
  · exact .inr ⟨hl, kl'⟩

theorem Extends.isDir {fs gs : Disk} (h : Extends fs gs) {l : Loc} (hl : fs.isDir l = true) :
    gs.isDir l = true := by
  simp only [Disk.isDir, Bool.or_eq_true, beq_iff_eq] at hl ⊢
  rcases hl with hl | hl
  · exact .inl hl
  · rcases h.nodes l with hg | ⟨hn, -⟩
    · exact .inr (hg.trans hl)
    · rw [hl] at hn
      cases hn

/-- A path leads where it led as long as no directory goes away. -/
theorem walk_of_dirs {fs gs : Disk} (h : ∀ l, fs.isDir l = true → gs.isDir l = true)
    {cs : List Name} {cur l : Loc} (hw : fs.walk cur cs = some l) : gs.walk cur cs = some l := by
  induction cs generalizing cur with
  | nil => exact hw
  | cons c cs ih =>
      simp only [Disk.walk, Option.ite_none_right_eq_some] at hw ⊢
      exact ⟨h _ hw.1, ih hw.2⟩

theorem Extends.walk {fs gs : Disk} (h : Extends fs gs) {cs : List Name} {cur l : Loc}
    (hw : fs.walk cur cs = some l) : gs.walk cur cs = some l :=
  walk_of_dirs (fun _ => h.isDir) hw

theorem Extends.nodeAt {fs gs : Disk} (h : Extends fs gs) {l : Loc} {n : Node}
    (hn : fs.nodeAt l = some n) : gs.nodeAt l = some n := by
  unfold Disk.nodeAt at hn ⊢
  split at hn
  · rwa [if_pos ‹_›]
  · rw [if_neg ‹_›]
    rcases h.nodes l with hg | ⟨hg, -⟩
    · exact hg.trans hn
    · rw [hg] at hn
      cases hn

theorem Extends.origin {fs gs : Disk} (h : Extends fs gs) (p : List UInt8) :
    gs.origin p = fs.origin p := by
  simp only [Disk.origin, h.cwd]

/-- What a path names, it still names when directories were added. -/
theorem Extends.status {fs gs : Disk} (h : Extends fs gs) {p : List UInt8} {n : Node}
    (hn : fs.status p = some n) : gs.status p = some n := by
  obtain ⟨l, hl, hn⟩ := Option.bind_eq_some_iff.mp hn
  have hl' : gs.resolve p = some l := by
    rw [resolve, h.origin]
    exact h.walk hl
  rw [Disk.status, hl']
  exact h.nodeAt hn

theorem extends_set_dir {fs : Disk} {l : Loc} (hl : fs.nodes l = none) :
    Extends fs (fs.set l .dir) := by
  refine ⟨fun k => ?_, rfl, rfl⟩
  by_cases hk : k = l
  · subst hk
    exact .inr ⟨hl, by simp⟩
  · exact .inl (Function.update_of_ne hk ..)

theorem mkdirs_extends (fs : Disk) (cur : Loc) (cs : List Name) :
    Extends fs (fs.mkdirs cur cs).1 := by
  induction cs generalizing fs cur with
  | nil => exact .refl fs
  | cons c cs ih =>
      unfold mkdirs
      split
      · split
        · exact ih fs _
        · split
          · exact .refl fs
          · rename_i hnew
            simp only [Bool.or_eq_true, not_or, Bool.not_eq_true, Option.isSome_eq_false_iff,
              Option.isNone_iff_eq_none] at hnew
            exact (extends_set_dir hnew.1).trans (ih _ _)
      · exact .refl fs

theorem walk_append (fs : Disk) (cur : Loc) (xs ys : List Name) :
    fs.walk cur (xs ++ ys) = (fs.walk cur xs).bind fun l => fs.walk l ys := by
  induction xs generalizing cur with
  | nil => rfl
  | cons x xs ih =>
      simp only [List.cons_append, walk]
      split
      · exact ih _
      · rfl

theorem mkdirs_append (fs : Disk) (cur : Loc) (xs ys : List Name) :
    fs.mkdirs cur (xs ++ ys) =
      match fs.mkdirs cur xs with
      | (gs, some l) => gs.mkdirs l ys
      | (gs, none) => (gs, none) := by
  induction xs generalizing fs cur with
  | nil => rfl
  | cons x xs ih =>
      simp only [List.cons_append, mkdirs]
      split
      · split
        · exact ih _ _
        · split
          · rfl
          · exact ih _ _
      · rfl

theorem isDir_set_dir (fs : Disk) (l : Loc) : (fs.set l .dir).isDir l = true := by
  simp [isDir]

theorem mkdirs_walk {fs gs : Disk} {cs : List Name} {cur l : Loc}
    (h : fs.mkdirs cur cs = (gs, some l)) : gs.walk cur cs = some l := by
  induction cs generalizing fs cur with
  | nil =>
      obtain ⟨-, hl⟩ := Prod.mk.inj h
      exact hl
  | cons c cs ih =>
      have hext := mkdirs_extends fs cur (c :: cs)
      rw [h] at hext
      unfold mkdirs at h
      split at h
      · rename_i hcur
        simp only [walk, hext.isDir hcur, if_true]
        split at h
        · exact ih h
        · split at h
          · cases h
          · exact ih h
      · cases h

/-- Nothing is left to be made along a path that leads somewhere. -/
theorem mkdirs_of_walk {fs : Disk} {cs : List Name} {c : Name} {cur l : Loc}
    (h : fs.walk cur (cs ++ [c]) = some l) :
    ∃ k, fs.mkdirs cur cs = (fs, some k) ∧ fs.isDir k = true ∧ l = advance k c := by
  induction cs generalizing cur with
  | nil =>
      simp only [List.nil_append, walk, Option.ite_none_right_eq_some, Option.some.injEq] at h
      exact ⟨cur, rfl, h.1, h.2.symm⟩
  | cons x xs ih =>
      simp only [List.cons_append, walk, Option.ite_none_right_eq_some] at h
      obtain ⟨hcur, h⟩ := h
      obtain ⟨k, hk, hdir, hl⟩ := ih h
      have hnext : fs.isDir (advance cur x) = true := by
        cases xs <;>
          simp only [List.nil_append, List.cons_append, walk, Option.ite_none_right_eq_some] at h <;>
          exact h.1
      exact ⟨k, by simp only [mkdirs, hcur, hnext, if_true, hk], hdir, hl⟩

/-- A directory that is there is not made again. -/
theorem mkdirs_of_walk_dir {fs : Disk} {cs : List Name} {cur l : Loc}
    (h : fs.walk cur cs = some l) (hl : fs.isDir l = true) : fs.mkdirs cur cs = (fs, some l) := by
  have hdot : fs.walk cur (cs ++ [[46]]) = some l := by
    rw [walk_append, h]
    simp [walk, hl, advance]
  obtain ⟨k, hk, -, hlk⟩ := mkdirs_of_walk hdot
  rw [hk, hlk]
  rfl

/-- Opening for writing fails and changes nothing, or it replaces the content. -/
theorem openWith_cases (keep : List UInt8 → List UInt8) (hkeep : keep [] = []) (fs : Disk)
    (p : List UInt8) : fs.openWith keep p = (fs, none) ∨
      ∃ l, fs.resolve p = some l ∧ fs.status p ≠ some .dir ∧
        fs.openWith keep p = (fs.set l (.file (keep (contentOf (fs.status p)))), some l) := by
  cases hl : fs.resolve p with
  | none => exact .inl (by simp [openWith, hl])
  | some l =>
      have hstatus : fs.status p = fs.nodeAt l := by simp [status, hl]
      cases hd : fs.denied l with
      | true => exact .inl (by simp [openWith, hl, hd])
      | false =>
          cases hn : fs.nodeAt l with
          | none =>
              refine .inr ⟨l, rfl, by simp [hstatus, hn], ?_⟩
              simp [openWith, hl, hd, hn, hstatus, contentOf, hkeep]
          | some n =>
              cases n with
              | dir => exact .inl (by simp [openWith, hl, hd, hn])
              | file x =>
                  refine .inr ⟨l, rfl, by simp [hstatus, hn], ?_⟩
                  simp [openWith, hl, hd, hn, hstatus, contentOf]

/-- Whether a file opens does not depend on what becomes of its content. -/
theorem openWith_isSome (keep keep' : List UInt8 → List UInt8) (fs : Disk) (p : List UInt8) :
    (fs.openWith keep p).2.isSome = (fs.openWith keep' p).2.isSome := by
  cases hl : fs.resolve p with
  | none => simp [openWith, hl]
  | some l =>
      cases hd : fs.denied l with
      | true => simp [openWith, hl, hd]
      | false =>
          cases hn : fs.nodeAt l with
          | none => simp [openWith, hl, hd, hn]
          | some n => cases n <;> simp [openWith, hl, hd, hn]

/-- A file takes the place of nothing or of a file: no directory comes or goes. -/
theorem isDir_set_file {fs : Disk} {l : Loc} (hl : fs.nodeAt l ≠ some .dir) (x : List UInt8) (k : Loc) :
    (fs.set l (.file x)).isDir k = fs.isDir k := by
  by_cases hkl : k = l
  · subst hkl
    have hroot : k ≠ [] := fun e => hl (by simp [nodeAt, e])
    have hn : fs.nodes k ≠ some .dir := by rwa [nodeAt, if_neg hroot] at hl
    have hnew : (some (Node.file x) == some Node.dir) = false := beq_eq_false_iff_ne.mpr (by simp)
    rw [isDir, isDir, set_nodes, Function.update_self, hnew, beq_eq_false_iff_ne.mpr hn]
  · simp [isDir, Function.update_of_ne hkl]

theorem resolve_set_file {fs : Disk} {l : Loc} (hl : fs.nodeAt l ≠ some .dir) (x p : List UInt8) :
    (fs.set l (.file x)).resolve p = fs.resolve p := by
  have hwalk : ∀ cs cur, (fs.set l (.file x)).walk cur cs = fs.walk cur cs := by
    intro cs
    induction cs with
    | nil => exact fun _ => rfl
    | cons c cs ih =>
        intro cur
        simp only [walk, isDir_set_file hl, ih]
  exact hwalk _ _

theorem nodeAt_set_file {fs : Disk} {l : Loc} (hl : fs.nodeAt l ≠ some .dir) (x : List UInt8) (k : Loc) :
    (fs.set l (.file x)).nodeAt k = if k = l then some (.file x) else fs.nodeAt k := by
  by_cases hkl : k = l
  · subst hkl
    have hroot : k ≠ [] := fun e => hl (by simp [nodeAt, e])
    simp [nodeAt, hroot]
  · simp [nodeAt, hkl]

theorem status_set_file {fs : Disk} {p : List UInt8} {l : Loc} (hl : fs.resolve p = some l)
    (hdir : fs.status p ≠ some .dir) (x : List UInt8) :
    (fs.set l (.file x)).status p = some (.file x) := by
  have hn : fs.nodeAt l ≠ some .dir := by rwa [status, hl] at hdir
  rw [status, resolve_set_file hn, hl, Option.bind_some, nodeAt_set_file hn, if_pos rfl]

section Below
variable {fs : Disk} {p d name : List UInt8} {b : Loc}

theorem advance_plain (hd : Plain d) (b : Loc) : advance b d = b ++ [d] := by
  simp [advance, hd.dot, hd.dotdot]

/-- `p` leads to the existing directory `b`. -/
structure Leads (fs : Disk) (p : List UInt8) (b : Loc) : Prop where
  walk : fs.walk (fs.origin p) (components p) = some b
  isDir : fs.isDir b = true

theorem Leads.of_dirs {gs : Disk} (h : Leads fs p b) (hcwd : gs.cwd = fs.cwd)
    (hdirs : ∀ l, fs.isDir l = true → gs.isDir l = true) : Leads gs p b where
  walk := by
    have : gs.origin p = fs.origin p := by simp only [origin, hcwd]
    rw [this]
    exact walk_of_dirs hdirs h.walk
  isDir := hdirs b h.isDir

theorem origin_append (fs : Disk) (hd : Plain d) : fs.origin (append p d) = fs.origin p := by
  simp only [origin, isAbsolute_append hd.isAbsolute]

theorem resolve_below (h : Leads fs p b) (hd : Plain d) (hn : Plain name) :
    fs.resolve (append (append p d) name) =
      if fs.isDir (b ++ [d]) then some (b ++ [d] ++ [name]) else none := by
  rw [resolve, origin_append fs hn, origin_append fs hd, components_append hn.isAbsolute,
    components_append hd.isAbsolute, hd.components, hn.components, walk_append, walk_append, h.walk]
  simp [walk, h.isDir, advance_plain hd, advance_plain hn]

theorem status_below (h : Leads fs p b) (hd : Plain d) (hn : Plain name) :
    fs.status (append (append p d) name) =
      if fs.isDir (b ++ [d]) then fs.nodes (b ++ [d] ++ [name]) else none := by
  rw [status, resolve_below h hd hn]
  split <;> simp [nodeAt]

theorem status_child (h : Leads fs p b) (hd : Plain d) :
    fs.status (append p d) = fs.nodes (b ++ [d]) := by
  rw [status, resolve, origin_append fs hd, components_append hd.isAbsolute, hd.components, walk_append,
    h.walk]
  simp [walk, h.isDir, advance_plain hd, nodeAt]

/-- `create_directories` below `p` makes at most the last directory, and fails if that is
denied or something else is there. -/
theorem createDirectories_child (h : Leads fs p b) (hd : Plain d) : fs.createDirectories (append p d) =
    if fs.isDir (b ++ [d]) then (fs, some (b ++ [d]))
    else if (fs.nodes (b ++ [d])).isSome || fs.denied (b ++ [d]) then (fs, none)
    else (fs.set (b ++ [d]) .dir, some (b ++ [d])) := by
  rw [createDirectories, origin_append fs hd, components_append hd.isAbsolute, hd.components,
    mkdirs_append, mkdirs_of_walk_dir h.walk h.isDir]
  simp only [mkdirs, h.isDir, if_true, advance_plain hd]

theorem createDirectories_below (h : Leads fs p b) (hd : Plain d)
    (hfree : fs.nodes (b ++ [d]) = none ∨ fs.nodes (b ++ [d]) = some .dir)
    (hallowed : fs.denied (b ++ [d]) = false) :
    fs.createDirectories (append p d) =
      (if fs.isDir (b ++ [d]) then fs else fs.set (b ++ [d]) .dir, some (b ++ [d])) := by
  rw [createDirectories_child h hd]
  split
  · rfl
  · rename_i hnew
    have hnone : fs.nodes (b ++ [d]) = none :=
      hfree.resolve_right fun hdir => hnew (by simp [isDir, hdir])
    simp [hnone, hallowed]

/-- The names below a directory, in the order in which they are iterated over. -/
structure Lists (fs : Disk) (b : Loc) (names : List Name) : Prop where
  nodup : names.Nodup
  mem : ∀ n, n ∈ names ↔ Plain n ∧ fs.nodes (b ++ [n]) ≠ none

/-- A directory can be made there. -/
def Free (fs : Disk) (l : Loc) : Prop := fs.nodes l = none ∧ fs.denied l = false

instance (fs : Disk) (l : Loc) : Decidable (fs.Free l) := by
  unfold Free
  infer_instance

end Below

/-- The content of one file is replaced, or nothing happens. -/
def Puts (fs gs : Disk) (p : List UInt8) : Prop :=
  gs = fs ∨ ∃ l x, fs.resolve p = some l ∧ fs.status p ≠ some .dir ∧ gs = fs.set l (.file x)

theorem openWith_write_puts (keep : List UInt8 → List UInt8) (hkeep : keep [] = []) (fs : Disk)
    (p x : List UInt8) : Puts fs ((fs.openWith keep p).1.write (fs.openWith keep p).2 x) p := by
  rcases openWith_cases keep hkeep fs p with h | ⟨l, hl, hs, h⟩
  · rw [h]
    exact .inl rfl
  · rw [h, write_set]
    exact .inr ⟨l, _, hl, hs, rfl⟩

end Disk

end FileSystem
