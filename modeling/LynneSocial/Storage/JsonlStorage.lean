import LynneSocial.Common.JsonCodec
import LynneSocial.Common.Models
import LynneSocial.Lib.FileSystem

/-!
# JsonlStorage

One directory per date below `data_dir_`, with an append-only `items.jsonl` and
the files `report.md` and `summary.json`, which every save replaces. Saving
returns the new disk and whether the call came back without an exception;
loading returns `none` when it throws. A stream that does not open or write is
never an exception. Paths are passed on whole: dates and `data_dir_` are taken to
hold no zero byte, at which the system would cut them.
-/
namespace LynneSocial

open FileSystem

structure JsonlStorage where
  dataDir : Str

namespace JsonlStorage

variable (c : JsonCodec) (st : JsonlStorage)

def itemsFile : Str := str "items.jsonl"
def reportFile : Str := str "report.md"
def summaryFile : Str := str "summary.json"

/-- `date.empty() ? today_str() : date`. -/
def dateOr (today date : Str) : Str := if date = [] then today else date

/-- `data_dir_ / d / name`. -/
def pathOf (d name : Str) : Str := append (append st.dataDir d) name

def dateDir (fs : Disk) (d : Str) : Disk × Option Str :=
  match fs.createDirectories (append st.dataDir d) with
  | (fs, some _) => (fs, some (append st.dataDir d))
  | (fs, none) => (fs, none)

/-- The loop of `save_items`. Unwinding closes the stream, which flushes the items before the one that
throws. -/
def writeItems (out : Option Loc) : Disk → List UnifiedItem → Disk × Bool
  | fs, [] => (fs, true)
  | fs, item :: rest =>
    match c.dump item.toJson with
    | some t => writeItems out (fs.write out (t ++ [newline])) rest
    | none => (fs, false)

def saveItems (today : Str) (fs : Disk) (items : List UnifiedItem) (date : Str) : Disk × Bool :=
  match st.dateDir fs (dateOr today date) with
  | (fs, none) => (fs, false)
  | (fs, some dir) =>
    let (fs, out) := fs.openAppend (append dir itemsFile)
    writeItems c out fs items

/-- One line of `load_items`. -/
def readItem (line : Str) : Option UnifiedItem := do
  let j ← c.parse line
  UnifiedItem.fromJson j {}

/-- The loop of `load_items`. The empty line that splitting finds behind a last
newline is skipped like any other. -/
def readItems (platform : Str) : List Str → Option (List UnifiedItem)
  | [] => some []
  | line :: rest =>
    if line = [] then readItems platform rest
    else do
      let item ← readItem c line
      let items ← readItems platform rest
      return if platform ≠ [] ∧ item.platform ≠ platform then items else item :: items

/-- What `load_items` makes of the file; nothing can be read from a directory. -/
def itemsOf (platform : Str) : Option Node → Option (List UnifiedItem)
  | none => some []
  | some .dir => some []
  | some (.file content) => readItems c platform (content.splitOn newline)

def loadItems (today : Str) (fs : Disk) (date platform : Str) : Option (List UnifiedItem) :=
  itemsOf c platform (fs.status (st.pathOf (dateOr today date) itemsFile))

def saveReport (today : Str) (fs : Disk) (markdown date : Str) : Disk × Bool :=
  match st.dateDir fs (dateOr today date) with
  | (fs, none) => (fs, false)
  | (fs, some dir) =>
    let (fs, out) := fs.openTruncate (append dir reportFile)
    (fs.write out markdown, true)

/-- Reading a directory through `istreambuf_iterator` throws. -/
def reportOf : Option Node → Option Str
  | none => some []
  | some .dir => none
  | some (.file content) => some content

def loadReport (today : Str) (fs : Disk) (date : Str) : Option Str :=
  reportOf (fs.status (st.pathOf (dateOr today date) reportFile))

/-- The file is open, and empty, before `dump(2)` is evaluated. -/
def saveSummary (today : Str) (fs : Disk) (summary : Json) (date : Str) : Disk × Bool :=
  match st.dateDir fs (dateOr today date) with
  | (fs, none) => (fs, false)
  | (fs, some dir) =>
    let (fs, out) := fs.openTruncate (append dir summaryFile)
    match c.dumpIndented summary with
    | some t => (fs.write out t, true)
    | none => (fs, false)

def summaryOf : Option Node → Option Json
  | none => some .null
  | some .dir => none
  | some (.file content) => c.parse content

def loadSummary (today : Str) (fs : Disk) (date : Str) : Option Json :=
  summaryOf c (fs.status (st.pathOf (dateOr today date) summaryFile))

/-- `entries` are the names in the order in which `directory_iterator` yields them. A
`data_dir_` that is a file throws. -/
def listDates (fs : Disk) (entries : List Str) : Option (List Str) :=
  match fs.status st.dataDir with
  | none => some []
  | some (.file _) => none
  | some .dir =>
    let dates := entries.filter fun name =>
      fs.status (append st.dataDir name) == some .dir && name != str "sessions"
    some (dates.mergeSort fun a b => !decide (a < b))

theorem readItems_append (platform : Str) (xs ys : List Str) :
    readItems c platform (xs ++ ys) = do
      let items ← readItems c platform xs
      let more ← readItems c platform ys
      return items ++ more := by
  induction xs with
  | nil => simp [readItems]
  | cons x xs ih =>
      simp only [List.cons_append, readItems, ih]
      split
      · rfl
      · cases readItem c x with
        | none => rfl
        | some item =>
            cases readItems c platform xs with
            | none => rfl
            | some items =>
                cases readItems c platform ys with
                | none => rfl
                | some more =>
                    simp only [Option.bind_eq_bind, Option.bind_some, Option.pure_def,
                      Option.some.injEq]
                    split <;> rfl

/-- The texts of the items up to the first that does not serialise, and whether there is none. -/
def serialized : List UnifiedItem → List Str × Bool
  | [] => ([], true)
  | item :: rest =>
    match c.dump item.toJson with
    | some t => (t :: (serialized rest).1, (serialized rest).2)
    | none => ([], false)

/-- Texts as lines of a file. -/
def block (ts : List Str) : Str := ts.flatMap (· ++ [newline])

theorem writeItems_eq (out : Option Loc) (fs : Disk) (items : List UnifiedItem) :
    writeItems c out fs items =
      (fs.write out (block (serialized c items).1), (serialized c items).2) := by
  induction items generalizing fs with
  | nil => simp [writeItems, serialized, block, Disk.write_nil]
  | cons item rest ih =>
      cases h : c.dump item.toJson with
      | none => simp [writeItems, serialized, h, block, Disk.write_nil]
      | some t => simp [writeItems, serialized, h, block, ih, Disk.write_write]

theorem splitOn_block {ts : List Str} (h : ∀ t ∈ ts, newline ∉ t) :
    (block ts).splitOn newline = ts ++ [[]] := by
  induction ts with
  | nil => rfl
  | cons t ts ih =>
      have hblock : block (t :: ts) = t ++ newline :: block ts := by simp [block]
      rw [hblock, List.splitOn_append_cons_self, List.splitOn_eq_singleton (h t List.mem_cons_self),
        ih fun s hs => h s (List.mem_cons_of_mem _ hs)]
      rfl

theorem serialized_line {c : JsonCodec} (hc : c.Lawful) {items : List UnifiedItem} :
    ∀ t ∈ (serialized c items).1, t ≠ [] ∧ newline ∉ t := by
  induction items with
  | nil => simp [serialized]
  | cons item rest ih =>
      cases h : c.dump item.toJson with
      | none => simp [serialized, h]
      | some t =>
          simp only [serialized, h, List.mem_cons, forall_eq_or_imp]
          exact ⟨hc.line _ t h, ih⟩

/-- A serialised item reads back, its metrics as they were written. -/
theorem readItem_dump {c : JsonCodec} (hc : c.Lawful) {item : UnifiedItem} {t : Str}
    (hm : item.metrics.wellFormed = true) (ht : c.dump item.toJson = some t) :
    readItem c t = some { item with metrics := item.metrics.written } := by
  have hp := hc.parse_dump _ t (UnifiedItem.toJson_wellFormed hm) ht
  simp only [readItem, hp, Option.bind_eq_bind, Option.bind_some]
  exact UnifiedItem.fromJson_written item {}

end JsonlStorage

end LynneSocial
