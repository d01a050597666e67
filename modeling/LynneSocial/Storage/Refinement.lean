import LynneSocial.Common.Nlohmann
import LynneSocial.Storage.JsonlStorage
import Mathlib.Data.List.Forall2

/-!
# JsonlStorage refines a map of dates

The abstract store keeps for every date a list of items, a report and a summary.
The disk represents a store when, below the directory that `data_dir_` leads to,
the three files of every plain date hold what the store has for it. Every
operation keeps the two in step and returns the same on both sides.
-/
namespace LynneSocial.JsonlStorage

open FileSystem

structure Record where
  items : List UnifiedItem := []
  report : Option Str := none
  summary : Option Json := none

abbrev Store := Str → Record

def Store.empty : Store := fun _ => {}

inductive Op where
  | saveItems (items : List UnifiedItem) (date : Str)
  | saveReport (markdown date : Str)
  | saveSummary (summary : Json) (date : Str)
  | loadItems (date platform : Str)
  | loadReport (date : Str)
  | loadSummary (date : Str)

inductive Value where
  | done
  | items (items : List UnifiedItem)
  | report (markdown : Str)
  | summary (summary : Json)

def ofPlatform (platform : Str) (items : List UnifiedItem) : List UnifiedItem :=
  if platform = [] then items else items.filter (·.platform = platform)

def Store.exec (s : Store) : Op → Store × Value
  | .saveItems items d =>
    (Function.update s d { s d with items := (s d).items ++ items }, .done)
  | .saveReport markdown d => (Function.update s d { s d with report := some markdown }, .done)
  | .saveSummary summary d => (Function.update s d { s d with summary := some summary }, .done)
  | .loadItems d platform => (s, .items (ofPlatform platform (s d).items))
  | .loadReport d => (s, .report ((s d).report.getD []))
  | .loadSummary d => (s, .summary ((s d).summary.getD .null))

variable (c : JsonCodec) (st : JsonlStorage)

def ended (r : Disk × Bool) : Disk × Option Value := (r.1, if r.2 then some .done else none)

def exec (today : Str) (fs : Disk) : Op → Disk × Option Value
  | .saveItems items d => ended (st.saveItems c today fs items d)
  | .saveReport markdown d => ended (st.saveReport today fs markdown d)
  | .saveSummary summary d => ended (st.saveSummary c today fs summary d)
  | .loadItems d platform => (fs, (st.loadItems c today fs d platform).map .items)
  | .loadReport d => (fs, (st.loadReport today fs d).map .report)
  | .loadSummary d => (fs, (st.loadSummary c today fs d).map .summary)

/-- A plain date, and data that JSON can carry. -/
def Op.Admissible : Op → Prop
  | .saveItems items d =>
    Plain d ∧ ∀ item ∈ items, item.Clean ∧ item.metrics.wellFormed = true
  | .saveSummary summary d =>
    Plain d ∧ summary.dumpable = true ∧ summary.finite = true ∧ summary.wellFormed = true
  | .saveReport _ d | .loadItems d _ | .loadReport d | .loadSummary d => Plain d

def fileNames : List Str := [itemsFile, reportFile, summaryFile]

/-- What is in a directory `b / d` under a name. -/
def entry (fs : Disk) (b : Loc) (d name : Str) : Option Node := fs.nodes (b ++ [d] ++ [name])

/-- Lines that read back as the items; before the first save there is no file. -/
def ItemsFile (node : Option Node) (items : List UnifiedItem) : Prop :=
  node = none ∧ items = [] ∨ ∃ ts, node = some (.file (block ts)) ∧
    List.Forall₂ (fun t item => (t ≠ [] ∧ newline ∉ t) ∧ readItem c t = some item) ts items

def SummaryFile (node : Option Node) (summary : Option Json) : Prop :=
  node = none ∧ summary = none ∨ ∃ t j, node = some (.file t) ∧ summary = some j ∧ c.parse t = some j

structure Files (fs : Disk) (b : Loc) (d : Str) (r : Record) : Prop where
  items : ItemsFile c (entry fs b d itemsFile) r.items
  report : entry fs b d reportFile = r.report.map .file
  summary : SummaryFile c (entry fs b d summaryFile) r.summary

structure Represents (b : Loc) (fs : Disk) (s : Store) : Prop where
  leads : Disk.Leads fs st.dataDir b
  allowed : ∀ l, fs.denied l = false
  dates : ∀ d, Plain d → fs.nodes (b ++ [d]) = none ∨ fs.nodes (b ++ [d]) = some .dir
  present : ∀ d, Plain d → ∀ name ∈ fileNames, entry fs b d name ≠ none → fs.isDir (b ++ [d]) = true
  files : ∀ d, Plain d → Files c fs b d (s d)

theorem fileNames_plain : ∀ name ∈ fileNames, Plain name := by decide
theorem itemsFile_mem : itemsFile ∈ fileNames := by decide
theorem reportFile_mem : reportFile ∈ fileNames := by decide
theorem summaryFile_mem : summaryFile ∈ fileNames := by decide

section Loading
variable {c} {st} {b : Loc} {fs : Disk} {s : Store} {d : Str}

theorem Represents.status (h : Represents c st b fs s) (hd : Plain d) {name : Str}
    (hn : name ∈ fileNames) (today : Str) :
    fs.status (st.pathOf (dateOr today d) name) = entry fs b d name := by
  rw [pathOf, dateOr, if_neg hd.nonempty, Disk.status_below h.leads hd (fileNames_plain name hn)]
  split
  · rfl
  · rename_i hdir
    by_contra hne
    exact hdir (h.present d hd name hn fun e => hne e.symm)

theorem readItems_forall (platform : Str) {ts : List Str} {items : List UnifiedItem}
    (h : List.Forall₂ (fun t item => (t ≠ [] ∧ newline ∉ t) ∧ readItem c t = some item) ts items) :
    readItems c platform ts = some (ofPlatform platform items) := by
  induction h with
  | nil => simp [readItems, ofPlatform]
  | cons hx _ ih =>
      obtain ⟨⟨hne, -⟩, hread⟩ := hx
      simp only [readItems, if_neg hne, hread, ih, Option.bind_eq_bind, Option.bind_some,
        Option.pure_def, Option.some.injEq]
      by_cases hp : platform = []
      · simp [ofPlatform, hp]
      · simp only [ofPlatform, hp, not_false_eq_true, true_and, if_false, List.filter_cons,
          decide_eq_true_eq, ite_not, ne_eq]

theorem ItemsFile.load {node : Option Node} {items : List UnifiedItem} (h : ItemsFile c node items)
    (platform : Str) : itemsOf c platform node = some (ofPlatform platform items) := by
  rcases h with ⟨rfl, rfl⟩ | ⟨ts, rfl, hts⟩
  · simp [itemsOf, ofPlatform]
  · have hlines : ∀ t ∈ ts, newline ∉ t := by
      intro t ht
      obtain ⟨i, hi, rfl⟩ := List.mem_iff_getElem.mp ht
      exact ((List.forall₂_iff_get.mp hts).2 i hi ((List.forall₂_iff_get.mp hts).1 ▸ hi)).1.2
    simp only [itemsOf, splitOn_block hlines, readItems_append, readItems_forall platform hts]
    simp [readItems]

theorem SummaryFile.load {node : Option Node} {summary : Option Json}
    (h : SummaryFile c node summary) : summaryOf c node = some (summary.getD .null) := by
  rcases h with ⟨rfl, rfl⟩ | ⟨t, j, rfl, rfl, hp⟩
  · rfl
  · exact hp

end Loading

/-- The disk after a save: the date's directory is there and the file has the content. -/
def putFile (fs : Disk) (b : Loc) (d name content : Str) : Disk :=
  (if fs.isDir (b ++ [d]) then fs else fs.set (b ++ [d]) .dir).set (b ++ [d] ++ [name]) (.file content)

section Saving
variable {c} {st} {b : Loc} {fs : Disk} {s : Store} {d name : Str}

theorem entry_putFile (fs : Disk) (b : Loc) (d name content e k : Str) :
    entry (putFile fs b d name content) b e k =
      if e = d ∧ k = name then some (.file content) else entry fs b e k := by
  have hdir : b ++ [e] ++ [k] ≠ b ++ [d] := fun h => by simpa using congrArg List.length h
  have hself : b ++ [e] ++ [k] = b ++ [d] ++ [name] ↔ e = d ∧ k = name := by simp
  simp only [entry, putFile, Disk.set_nodes, Function.update_apply, hself]
  split
  · rfl
  · split
    · rfl
    · simp only [Disk.set_nodes, Function.update_apply, if_neg hdir]

theorem nodes_putFile_date (fs : Disk) (b : Loc) (d name content e : Str) :
    (putFile fs b d name content).nodes (b ++ [e]) =
      if e = d ∧ fs.isDir (b ++ [d]) = false then some .dir else fs.nodes (b ++ [e]) := by
  have hfile : b ++ [e] ≠ b ++ [d] ++ [name] := fun h => by simpa using congrArg List.length h
  have hself : b ++ [e] = b ++ [d] ↔ e = d := by simp
  simp only [putFile, Disk.set_nodes, Function.update_apply, if_neg hfile]
  cases hdir : fs.isDir (b ++ [d]) with
  | true => simp
  | false => simp [Function.update_apply]

theorem isDir_putFile {content : Str} (hfile : entry fs b d name ≠ some .dir) {l : Loc}
    (hl : fs.isDir l = true) : (putFile fs b d name content).isDir l = true := by
  simp only [Disk.isDir, Bool.or_eq_true, beq_iff_eq] at hl ⊢
  refine hl.imp_right fun hl => ?_
  have hne : l ≠ b ++ [d] ++ [name] := by
    rintro rfl
    exact hfile hl
  simp only [putFile, Disk.set_nodes, Function.update_apply, if_neg hne]
  split
  · exact hl
  · simp only [Disk.set_nodes, Function.update_apply]
    split
    · rfl
    · exact hl

theorem putFile_cwd (fs : Disk) (b : Loc) (d name content : Str) :
    (putFile fs b d name content).cwd = fs.cwd := by
  unfold putFile
  split <;> rfl

theorem putFile_denied (fs : Disk) (b : Loc) (d name content : Str) :
    (putFile fs b d name content).denied = fs.denied := by
  unfold putFile
  split <;> rfl

/-- Replacing one file of one date. -/
theorem Represents.putFile (h : Represents c st b fs s) (hd : Plain d) (name content : Str)
    {r : Record} (hfile : entry fs b d name ≠ some .dir)
    (hr : Files c (putFile fs b d name content) b d r) :
    Represents c st b (putFile fs b d name content) (Function.update s d r) where
  leads := h.leads.of_dirs (putFile_cwd ..) fun _ => isDir_putFile hfile
  allowed l := by rw [putFile_denied]; exact h.allowed l
  dates e he := by
    rw [nodes_putFile_date]
    split
    · exact .inr rfl
    · exact h.dates e he
  present e he k hk hne := by
    by_cases hed : e = d
    · subst hed
      cases hdir : fs.isDir (b ++ [e]) with
      | true => exact isDir_putFile hfile hdir
      | false =>
          have := nodes_putFile_date fs b e name content e
          simp only [hdir, and_self, if_true] at this
          simp [Disk.isDir, this]
    · rw [entry_putFile, if_neg (fun hc => hed hc.1)] at hne
      exact isDir_putFile hfile (h.present e he k hk hne)
  files e he := by
    by_cases hed : e = d
    · subst hed
      simpa using hr
    · have hk : ∀ k, entry (JsonlStorage.putFile fs b d name content) b e k = entry fs b e k :=
        fun k => by rw [entry_putFile, if_neg fun hc => hed hc.1]
      rw [Function.update_of_ne hed]
      have hf := h.files e he
      exact ⟨hk _ ▸ hf.items, hk _ ▸ hf.report, hk _ ▸ hf.summary⟩

/-- The date's directory is made and the file opens. -/
theorem Represents.open (h : Represents c st b fs s) (hd : Plain d) (hn : name ∈ fileNames)
    (hfile : entry fs b d name ≠ some .dir) (keep : Str → Str) (hkeep : keep [] = []) (today : Str) :
    ∃ gs, st.dateDir fs (dateOr today d) = (gs, some (append st.dataDir d)) ∧
      gs.openWith keep (append (append st.dataDir d) name) =
        (JsonlStorage.putFile fs b d name (keep (contentOf (entry fs b d name))),
          some (b ++ [d] ++ [name])) := by
  have hcreate := Disk.createDirectories_below h.leads hd (h.dates d hd) (h.allowed _)
  obtain ⟨gs, hgs⟩ : ∃ gs, gs = if fs.isDir (b ++ [d]) then fs else fs.set (b ++ [d]) .dir := ⟨_, rfl⟩
  rw [← hgs] at hcreate
  refine ⟨gs, by rw [dateDir, dateOr, if_neg hd.nonempty, hcreate], ?_⟩
  have hext : Disk.Extends fs gs := by
    have := Disk.mkdirs_extends fs (fs.origin (append st.dataDir d))
      (components (append st.dataDir d))
    rwa [show fs.mkdirs _ _ = fs.createDirectories (append st.dataDir d) from rfl, hcreate] at this
  have hdir : gs.isDir (b ++ [d]) = true := by
    rw [hgs]
    split
    · assumption
    · exact Disk.isDir_set_dir _ _
  have hentry : gs.nodes (b ++ [d] ++ [name]) = entry fs b d name := by
    rw [hgs]
    split
    · rfl
    · have hne : b ++ [d] ++ [name] ≠ b ++ [d] := fun h => by simpa using congrArg List.length h
      exact Function.update_of_ne hne ..
  have hresolve : gs.resolve (append (append st.dataDir d) name) = some (b ++ [d] ++ [name]) := by
    rw [Disk.resolve_below (h.leads.of_dirs hext.cwd fun _ => hext.isDir) hd (fileNames_plain name hn),
      if_pos hdir]
  have hput : ∀ y, JsonlStorage.putFile fs b d name y = gs.set (b ++ [d] ++ [name]) (.file y) :=
    fun y => by rw [JsonlStorage.putFile, hgs]
  have hallowed : gs.denied (b ++ [d] ++ [name]) = false := by
    rw [hext.denied]
    exact h.allowed _
  have hat : gs.nodeAt (b ++ [d] ++ [name]) = entry fs b d name := by
    rw [Disk.nodeAt, if_neg (by simp), hentry]
  simp only [Disk.openWith, hresolve, hallowed, hat, hput, Bool.false_eq_true, if_false]
  cases he : entry fs b d name with
  | none => simp [contentOf, hkeep]
  | some n =>
      cases n with
      | dir => exact absurd he hfile
      | file x => rfl

theorem putFile_write (fs : Disk) (b : Loc) (d name x y : Str) :
    (putFile fs b d name x).write (some (b ++ [d] ++ [name])) y = putFile fs b d name (x ++ y) :=
  Disk.write_set ..

theorem ItemsFile.not_dir {node : Option Node} {items : List UnifiedItem}
    (h : ItemsFile c node items) : node ≠ some .dir := by
  rcases h with ⟨rfl, -⟩ | ⟨ts, rfl, -⟩ <;> simp

theorem SummaryFile.not_dir {node : Option Node} {summary : Option Json}
    (h : SummaryFile c node summary) : node ≠ some .dir := by
  rcases h with ⟨rfl, -⟩ | ⟨t, j, rfl, -⟩ <;> simp

theorem serialized_clean (hc : c.Lawful) {items : List UnifiedItem}
    (h : ∀ item ∈ items, item.Clean ∧ item.metrics.wellFormed = true) :
    (serialized c items).2 = true ∧ List.Forall₂
      (fun t item => (t ≠ [] ∧ newline ∉ t) ∧ readItem c t = some item) (serialized c items).1 items := by
  induction items with
  | nil => exact ⟨rfl, .nil⟩
  | cons item rest ih =>
      obtain ⟨hclean, hwell⟩ := h item List.mem_cons_self
      obtain ⟨hok, hrest⟩ := ih fun x hx => h x (List.mem_cons_of_mem _ hx)
      obtain ⟨t, ht⟩ := Option.isSome_iff_exists.mp (hc.dump_isSome _ hclean.toJson_dumpable)
      have hread : readItem c t = some item := by
        rw [readItem_dump hc hwell ht, Json.written_of_finite _ hclean.finite]
      simp only [serialized, ht]
      exact ⟨hok, .cons ⟨hc.line _ t ht, hread⟩ hrest⟩

/-- New lines behind those that are there. -/
theorem ItemsFile.append {node : Option Node} {items more : List UnifiedItem} {ts : List Str}
    (h : ItemsFile c node items) (hts : List.Forall₂
      (fun t item => (t ≠ [] ∧ newline ∉ t) ∧ readItem c t = some item) ts more) :
    ItemsFile c (some (.file (contentOf node ++ block ts))) (items ++ more) := by
  rcases h with ⟨rfl, rfl⟩ | ⟨us, rfl, hus⟩
  · exact .inr ⟨ts, rfl, hts⟩
  · refine .inr ⟨us ++ ts, ?_, List.rel_append hus hts⟩
    simp [contentOf, block]

theorem Represents.saveItems (h : Represents c st b fs s) (hc : c.Lawful) (hd : Plain d)
    {items : List UnifiedItem}
    (hitems : ∀ item ∈ items, item.Clean ∧ item.metrics.wellFormed = true) (today : Str) :
    ∃ gs, st.saveItems c today fs items d = (gs, true) ∧ Represents c st b gs
      (Function.update s d { s d with items := (s d).items ++ items }) := by
  have hf := h.files d hd
  obtain ⟨hok, hts⟩ := serialized_clean hc hitems
  obtain ⟨gs, hdir, hopen⟩ := h.open hd itemsFile_mem hf.items.not_dir id rfl today
  refine ⟨_, ?_, h.putFile hd itemsFile
    (contentOf (entry fs b d itemsFile) ++ block (serialized c items).1) hf.items.not_dir ⟨?_, ?_, ?_⟩⟩
  · simp only [JsonlStorage.saveItems, hdir, Disk.openAppend, hopen, writeItems_eq, hok, id,
      putFile_write]
  · rw [entry_putFile, if_pos ⟨rfl, rfl⟩]
    exact hf.items.append hts
  · rw [entry_putFile, if_neg fun e => absurd e.2 (by decide)]
    exact hf.report
  · rw [entry_putFile, if_neg fun e => absurd e.2 (by decide)]
    exact hf.summary

theorem Represents.saveReport (h : Represents c st b fs s) (hd : Plain d) (markdown today : Str) :
    ∃ gs, st.saveReport today fs markdown d = (gs, true) ∧ Represents c st b gs
      (Function.update s d { s d with report := some markdown }) := by
  have hf := h.files d hd
  have hfile : entry fs b d reportFile ≠ some .dir := by
    rw [hf.report]
    cases (s d).report <;> simp
  obtain ⟨gs, hdir, hopen⟩ := h.open hd reportFile_mem hfile (fun _ => []) rfl today
  refine ⟨_, ?_, h.putFile hd reportFile markdown hfile ⟨?_, ?_, ?_⟩⟩
  · simp only [JsonlStorage.saveReport, hdir, Disk.openTruncate, hopen, putFile_write,
      List.nil_append]
  · rw [entry_putFile, if_neg fun e => absurd e.2 (by decide)]
    exact hf.items
  · rw [entry_putFile, if_pos ⟨rfl, rfl⟩]
    rfl
  · rw [entry_putFile, if_neg fun e => absurd e.2 (by decide)]
    exact hf.summary

theorem Represents.saveSummary (h : Represents c st b fs s) (hc : c.Lawful) (hd : Plain d)
    {summary : Json} (hdump : summary.dumpable = true) (hfin : summary.finite = true)
    (hwell : summary.wellFormed = true) (today : Str) :
    ∃ gs, st.saveSummary c today fs summary d = (gs, true) ∧ Represents c st b gs
      (Function.update s d { s d with summary := some summary }) := by
  have hf := h.files d hd
  obtain ⟨t, ht⟩ := Option.isSome_iff_exists.mp (hc.dumpIndented_isSome _ hdump)
  have hparse : c.parse t = some summary := by
    rw [hc.parse_dumpIndented _ t hwell ht, Json.written_of_finite _ hfin]
  obtain ⟨gs, hdir, hopen⟩ :=
    h.open hd summaryFile_mem hf.summary.not_dir (fun _ => []) rfl today
  refine ⟨_, ?_, h.putFile hd summaryFile t hf.summary.not_dir ⟨?_, ?_, ?_⟩⟩
  · simp only [JsonlStorage.saveSummary, hdir, Disk.openTruncate, hopen, ht, putFile_write,
      List.nil_append]
  · rw [entry_putFile, if_neg fun e => absurd e.2 (by decide)]
    exact hf.items
  · rw [entry_putFile, if_neg fun e => absurd e.2 (by decide)]
    exact hf.report
  · rw [entry_putFile, if_pos ⟨rfl, rfl⟩]
    exact .inr ⟨t, summary, rfl, rfl, hparse⟩

end Saving

section Simulation
variable {c} {st} {b : Loc} {fs : Disk} {s : Store}

theorem Represents.exec (h : Represents c st b fs s) (hc : c.Lawful) (op : Op)
    (hop : op.Admissible) (today : Str) :
    (st.exec c today fs op).2 = some (s.exec op).2 ∧
      Represents c st b (st.exec c today fs op).1 (s.exec op).1 := by
  cases op with
  | saveItems items d =>
      obtain ⟨gs, hgs, hrep⟩ := h.saveItems hc hop.1 hop.2 today
      simp only [JsonlStorage.exec, hgs, ended, if_true]
      exact ⟨rfl, hrep⟩
  | saveReport markdown d =>
      obtain ⟨gs, hgs, hrep⟩ := h.saveReport hop markdown today
      simp only [JsonlStorage.exec, hgs, ended, if_true]
      exact ⟨rfl, hrep⟩
  | saveSummary summary d =>
      obtain ⟨hd, hdump, hfin, hwell⟩ := hop
      obtain ⟨gs, hgs, hrep⟩ := h.saveSummary hc hd hdump hfin hwell today
      simp only [JsonlStorage.exec, hgs, ended, if_true]
      exact ⟨rfl, hrep⟩
  | loadItems d platform =>
      refine ⟨?_, h⟩
      simp only [JsonlStorage.exec, JsonlStorage.loadItems, h.status hop itemsFile_mem,
        (h.files d hop).items.load platform]
      rfl
  | loadReport d =>
      refine ⟨?_, h⟩
      simp only [JsonlStorage.exec, JsonlStorage.loadReport, h.status hop reportFile_mem,
        (h.files d hop).report]
      cases hr : (s d).report <;> simp [reportOf, Store.exec, hr]
  | loadSummary d =>
      refine ⟨?_, h⟩
      simp only [JsonlStorage.exec, JsonlStorage.loadSummary, h.status hop summaryFile_mem,
        (h.files d hop).summary.load]
      rfl

/-- `create_directories` of the first save also makes `data_dir_`. Until then the disk may lack it, and
the store is empty. -/
structure Simulates (c : JsonCodec) (st : JsonlStorage) (b : Loc) (fs : Disk) (s : Store) :
    Prop where
  made : ∃ gs, fs.createDirectories st.dataDir = (gs, some b) ∧ Represents c st b gs s ∧
    (gs = fs ∨ s = .empty)

/-- Nothing is stored yet, and no operation on the disk is going to fail. -/
structure Fresh (st : JsonlStorage) (b : Loc) (fs gs : Disk) : Prop where
  made : fs.createDirectories st.dataDir = (gs, some b)
  isDir : gs.isDir b = true
  allowed : ∀ l, fs.denied l = false
  dates : ∀ d, Plain d → gs.nodes (b ++ [d]) = none ∨ gs.nodes (b ++ [d]) = some .dir
  nothing : ∀ d, Plain d → ∀ name ∈ fileNames, entry gs b d name = none

theorem createDirectories_extends {gs : Disk} {p : Str} {l : Option Loc}
    (h : fs.createDirectories p = (gs, l)) : Disk.Extends fs gs := by
  have := Disk.mkdirs_extends fs (fs.origin p) (components p)
  rwa [show fs.mkdirs _ _ = fs.createDirectories p from rfl, h] at this

theorem Fresh.simulates {gs : Disk} (h : Fresh st b fs gs) : Simulates c st b fs .empty where
  made := by
    have hext := createDirectories_extends h.made
    refine ⟨gs, h.made, ⟨⟨?_, h.isDir⟩, fun l => ?_, h.dates, ?_, ?_⟩, .inr rfl⟩
    · rw [hext.origin]
      exact Disk.mkdirs_walk h.made
    · rw [hext.denied]
      exact h.allowed l
    · intro d hd name hn hne
      exact absurd (h.nothing d hd name hn) hne
    · intro d hd
      have hnone := h.nothing d hd
      exact ⟨.inl ⟨hnone _ itemsFile_mem, rfl⟩, hnone _ reportFile_mem,
        .inl ⟨hnone _ summaryFile_mem, rfl⟩⟩

theorem Represents.made (h : Represents c st b fs s) :
    fs.createDirectories st.dataDir = (fs, some b) :=
  Disk.mkdirs_of_walk_dir h.leads.walk h.leads.isDir

/-- A save makes `data_dir_` and then does what it does when `data_dir_` is there. -/
theorem dateDir_made {gs : Disk} (hmade : fs.createDirectories st.dataDir = (gs, some b))
    (hagain : gs.createDirectories st.dataDir = (gs, some b)) {d : Str} (hd : Plain d) :
    st.dateDir fs d = st.dateDir gs d := by
  have hcreate : ∀ hs : Disk, hs.createDirectories st.dataDir = (gs, some b) →
      hs.createDirectories (append st.dataDir d) = gs.mkdirs b [d] := by
    intro hs h
    rw [Disk.createDirectories, Disk.origin_append hs hd, components_append hd.isAbsolute,
      hd.components, Disk.mkdirs_append]
    rw [Disk.createDirectories] at h
    rw [h]
  rw [dateDir, dateDir, hcreate fs hmade, hcreate gs hagain]

/-- A load that finds no `data_dir_` finds no file. -/
theorem status_made {gs : Disk} (hmade : fs.createDirectories st.dataDir = (gs, some b)) (p : Str) :
    fs.status p = none ∨ fs.status p = gs.status p := by
  cases h : fs.status p with
  | none => exact .inl rfl
  | some n => exact .inr ((createDirectories_extends hmade).status h).symm

theorem exec_made {gs : Disk} (hmade : fs.createDirectories st.dataDir = (gs, some b))
    (hrep : Represents c st b gs .empty) {op : Op} (hop : op.Admissible) (today : Str) :
    (st.exec c today fs op).2 = (st.exec c today gs op).2 ∧
      ((st.exec c today fs op).1 = (st.exec c today gs op).1 ∨
        (st.exec c today fs op).1 = fs ∧ (st.exec c today gs op).1 = gs ∧
          (Store.empty.exec op).1 = .empty) := by
  have hdate : ∀ d, Plain d → st.dateDir fs (dateOr today d) = st.dateDir gs (dateOr today d) := by
    intro d hd
    rw [dateOr, if_neg hd.nonempty]
    exact dateDir_made hmade hrep.made hd
  cases op with
  | saveItems items d =>
      have h : st.exec c today fs (.saveItems items d) = st.exec c today gs (.saveItems items d) := by
        simp only [JsonlStorage.exec, JsonlStorage.saveItems, hdate d hop.1]
      exact ⟨by rw [h], .inl (by rw [h])⟩
  | saveReport markdown d =>
      have h : st.exec c today fs (.saveReport markdown d) = st.exec c today gs (.saveReport markdown d) := by
        simp only [JsonlStorage.exec, JsonlStorage.saveReport, hdate d hop]
      exact ⟨by rw [h], .inl (by rw [h])⟩
  | saveSummary summary d =>
      have h : st.exec c today fs (.saveSummary summary d) = st.exec c today gs (.saveSummary summary d) := by
        simp only [JsonlStorage.exec, JsonlStorage.saveSummary, hdate d hop.1]
      exact ⟨by rw [h], .inl (by rw [h])⟩
  | loadItems d platform =>
      refine ⟨?_, .inr ⟨rfl, rfl, rfl⟩⟩
      have hload := (hrep.files d hop).items.load platform
      rw [← hrep.status hop itemsFile_mem today] at hload
      simp only [JsonlStorage.exec, JsonlStorage.loadItems]
      rcases status_made hmade (st.pathOf (dateOr today d) itemsFile) with h | h
      · rw [h, hload]
        simp [itemsOf, ofPlatform, Store.empty]
      · rw [h]
  | loadReport d =>
      refine ⟨?_, .inr ⟨rfl, rfl, rfl⟩⟩
      have hnone : gs.status (st.pathOf (dateOr today d) reportFile) = none := by
        rw [hrep.status hop reportFile_mem]
        exact (hrep.files d hop).report
      simp only [JsonlStorage.exec, JsonlStorage.loadReport]
      rcases status_made hmade (st.pathOf (dateOr today d) reportFile) with h | h <;> simp [h, hnone]
  | loadSummary d =>
      refine ⟨?_, .inr ⟨rfl, rfl, rfl⟩⟩
      have hload := (hrep.files d hop).summary.load
      rw [← hrep.status hop summaryFile_mem today] at hload
      simp only [JsonlStorage.exec, JsonlStorage.loadSummary]
      rcases status_made hmade (st.pathOf (dateOr today d) summaryFile) with h | h
      · rw [h, hload]
        rfl
      · rw [h]

theorem Simulates.exec (h : Simulates c st b fs s) (hc : c.Lawful) (op : Op)
    (hop : op.Admissible) (today : Str) :
    (st.exec c today fs op).2 = some (s.exec op).2 ∧
      Simulates c st b (st.exec c today fs op).1 (s.exec op).1 := by
  obtain ⟨gs, hmade, hrep, hcase⟩ := h.made
  obtain ⟨hout, hnext⟩ := hrep.exec hc op hop today
  rcases hcase with rfl | rfl
  · exact ⟨hout, ⟨_, hnext.made, hnext, .inl rfl⟩⟩
  · obtain ⟨hsame, hdisk⟩ := exec_made hmade hrep hop today
    refine ⟨hsame.trans hout, ?_⟩
    rcases hdisk with hdisk | ⟨hfs, hgs, hempty⟩
    · rw [hdisk]
      exact ⟨_, hnext.made, hnext, .inl rfl⟩
    · rw [hfs, hempty]
      exact ⟨gs, hmade, hrep, .inr rfl⟩

end Simulation

/-- A call, with what `today_str()` would give at that moment. -/
structure Call where
  today : Str
  op : Op

def run : Disk → List Call → Disk × List (Option Value)
  | fs, [] => (fs, [])
  | fs, call :: calls =>
    let (fs, v) := st.exec c call.today fs call.op
    let (fs, vs) := run fs calls
    (fs, v :: vs)

def Store.run : Store → List Call → Store × List Value
  | s, [] => (s, [])
  | s, call :: calls =>
    let (s, v) := s.exec call.op
    let (s, vs) := run s calls
    (s, v :: vs)

theorem Simulates.run {b : Loc} {fs : Disk} {s : Store} {c : JsonCodec} {st : JsonlStorage}
    (h : Simulates c st b fs s) (hc : c.Lawful) {calls : List Call}
    (hcalls : ∀ call ∈ calls, call.op.Admissible) :
    (st.run c fs calls).2 = (s.run calls).2.map some ∧
      Simulates c st b (st.run c fs calls).1 (s.run calls).1 := by
  induction calls generalizing fs s with
  | nil => exact ⟨rfl, h⟩
  | cons call calls ih =>
      obtain ⟨hout, hnext⟩ := h.exec hc call.op (hcalls call List.mem_cons_self) call.today
      obtain ⟨houts, hend⟩ := ih hnext fun x hx => hcalls x (List.mem_cons_of_mem _ hx)
      simp only [JsonlStorage.run, Store.run, List.map_cons, hout, houts, true_and]
      exact hend

def savedItems (d : Str) (calls : List Call) : List UnifiedItem :=
  calls.flatMap fun call =>
    match call.op with
    | .saveItems items e => if e = d then items else []
    | _ => []

def savedReports (d : Str) (calls : List Call) : List Str :=
  calls.filterMap fun call =>
    match call.op with
    | .saveReport markdown e => if e = d then some markdown else none
    | _ => none

def savedSummaries (d : Str) (calls : List Call) : List Json :=
  calls.filterMap fun call =>
    match call.op with
    | .saveSummary summary e => if e = d then some summary else none
    | _ => none

/-- What the calls saved for `d`, on top of what was there. -/
def Record.after (r : Record) (d : Str) (calls : List Call) : Record where
  items := r.items ++ savedItems d calls
  report := (savedReports d calls).getLast?.or r.report
  summary := (savedSummaries d calls).getLast?.or r.summary

theorem Record.after_cons (r : Record) (d : Str) (call : Call) (calls : List Call) :
    r.after d (call :: calls) = (r.after d [call]).after d calls := by
  have hitems : savedItems d (call :: calls) = savedItems d [call] ++ savedItems d calls := by
    simp [savedItems]
  have hreports : savedReports d (call :: calls) =
      savedReports d [call] ++ savedReports d calls := by
    rw [savedReports, savedReports, savedReports, ← List.filterMap_append]
    rfl
  have hsummaries : savedSummaries d (call :: calls) =
      savedSummaries d [call] ++ savedSummaries d calls := by
    rw [savedSummaries, savedSummaries, savedSummaries, ← List.filterMap_append]
    rfl
  simp only [Record.after, hitems, hreports, hsummaries, List.getLast?_append, List.append_assoc,
    Option.or_assoc]

/-- One call changes the record of its own date, and there the one kind it is about. -/
theorem Store.exec_at (s : Store) (call : Call) (d : Str) :
    (s.exec call.op).1 d = (s d).after d [call] := by
  cases hop : call.op with
  | saveItems _ e | saveReport _ e | saveSummary _ e =>
      by_cases he : d = e
      · subst he
        simp [Store.exec, Record.after, savedItems, savedReports, savedSummaries, hop]
      · simp [Store.exec, Record.after, savedItems, savedReports, savedSummaries, hop,
          Function.update_of_ne he, Ne.symm he]
  | _ => simp [Store.exec, Record.after, savedItems, savedReports, savedSummaries, hop]

theorem Store.run_at (s : Store) (calls : List Call) (d : Str) :
    (s.run calls).1 d = (s d).after d calls := by
  induction calls generalizing s with
  | nil => simp [Store.run, Record.after, savedItems, savedReports, savedSummaries]
  | cons call calls ih =>
      rw [Record.after_cons, ← Store.exec_at]
      exact ih _

/-- Every call returns what the abstract store returns, and afterwards each date
loads as its own saved items in call order, its last report and its last summary. -/
theorem storage_refines (c : JsonCodec) (hc : c.Lawful) (st : JsonlStorage) (b : Loc)
    (fs gs : Disk) (hfs : Fresh st b fs gs) (calls : List Call)
    (hcalls : ∀ call ∈ calls, call.op.Admissible) :
    (st.run c fs calls).2 = (Store.empty.run calls).2.map some ∧
      ∀ d today, Plain d →
        (∀ platform, st.loadItems c today (st.run c fs calls).1 d platform =
          some (ofPlatform platform (savedItems d calls))) ∧
        st.loadReport today (st.run c fs calls).1 d =
          some ((savedReports d calls).getLast?.getD []) ∧
        st.loadSummary c today (st.run c fs calls).1 d =
          some ((savedSummaries d calls).getLast?.getD .null) := by
  obtain ⟨houts, hend⟩ := hfs.simulates.run (c := c) hc hcalls
  refine ⟨houts, fun d today hd => ?_⟩
  have hat : (Store.empty.run calls).1 d = Record.after {} d calls := Store.run_at _ _ _
  have hitems : ((Store.empty.run calls).1 d).items = savedItems d calls := by
    rw [hat]
    rfl
  refine ⟨fun platform => ?_, ?_, ?_⟩
  · have h := (hend.exec hc (.loadItems d platform) hd today).1
    simp only [JsonlStorage.exec, Store.exec, Option.map_eq_some_iff, Value.items.injEq] at h
    obtain ⟨items, hload, rfl⟩ := h
    rw [hload, hitems]
  · have h := (hend.exec hc (.loadReport d) hd today).1
    simp only [JsonlStorage.exec, Store.exec, Option.map_eq_some_iff, Value.report.injEq] at h
    obtain ⟨markdown, hload, rfl⟩ := h
    rw [hload, hat]
    simp [Record.after]
  · have h := (hend.exec hc (.loadSummary d) hd today).1
    simp only [JsonlStorage.exec, Store.exec, Option.map_eq_some_iff, Value.summary.injEq] at h
    obtain ⟨summary, hload, rfl⟩ := h
    rw [hload, hat]
    simp [Record.after]

def sampleItem : UnifiedItem where
  platform := str "zhihu"
  itemId := str "1"
  metrics := .obj [(str "likes", .int 3)]

def sampleSummary : Json := .obj [(str "count", .int 1)]

/-- The library itself. -/
def sampleCodec : JsonCodec := JsonText.codec JsonText.exactDigits

theorem sampleCodec_lawful : sampleCodec.Lawful := JsonText.exactDigits_readsBack.lawful

def sampleStorage : JsonlStorage := { dataDir := str "data" }

theorem sampleStorage_fresh :
    Fresh sampleStorage [str "data"] {} (Disk.set {} [str "data"] .dir) := by
  have hcomponents : components (str "data") = [str "data"] := by decide
  refine ⟨?_, by decide, fun _ => rfl, fun d _ => .inl ?_, fun d _ name _ => ?_⟩
  · simp [sampleStorage, Disk.createDirectories, hcomponents]
    rfl
  · simp [Disk.set]
  · simp [entry, Disk.set]

theorem sampleItem_admissible :
    sampleItem.Clean ∧ sampleItem.metrics.wellFormed = true :=
  ⟨⟨by decide, by decide, by decide⟩, by decide⟩

/-- Two dates, a second batch for one of them, a summary, and loads in between. -/
def sampleCalls : List Call :=
  [⟨[], .loadItems (str "2024-01-01") []⟩, ⟨[], .saveItems [sampleItem] (str "2024-01-01")⟩,
    ⟨[], .saveItems [sampleItem] (str "2024-01-02")⟩, ⟨[], .saveReport (str "# Report") (str "2024-01-01")⟩,
    ⟨[], .saveSummary sampleSummary (str "2024-01-02")⟩,
    ⟨[], .saveItems [sampleItem] (str "2024-01-01")⟩]

theorem storage_refines_sample :
    let fs := (sampleStorage.run sampleCodec {} sampleCalls).1
    sampleStorage.loadItems sampleCodec [] fs (str "2024-01-01") [] = some [sampleItem, sampleItem] ∧
    sampleStorage.loadItems sampleCodec [] fs (str "2024-01-02") (str "github") = some [] ∧
    sampleStorage.loadSummary sampleCodec [] fs (str "2024-01-02") = some sampleSummary ∧
    sampleStorage.loadReport [] fs (str "2024-01-02") = some [] := by
  have hcalls : ∀ call ∈ sampleCalls, call.op.Admissible := by
    have hplain : Plain (str "2024-01-01") ∧ Plain (str "2024-01-02") := by decide
    have hitems : ∀ item ∈ [sampleItem], item.Clean ∧ item.metrics.wellFormed = true := by
      simpa using sampleItem_admissible
    simp only [sampleCalls, List.forall_mem_cons]
    exact ⟨hplain.1, ⟨hplain.1, hitems⟩, ⟨hplain.2, hitems⟩, hplain.1,
      ⟨hplain.2, by decide, by decide, by decide⟩, ⟨hplain.1, hitems⟩, by simp⟩
  have hfinal := (storage_refines sampleCodec sampleCodec_lawful sampleStorage _ _ _
    sampleStorage_fresh sampleCalls hcalls).2
  have hfirst := hfinal (str "2024-01-01") [] (by decide)
  have hsecond := hfinal (str "2024-01-02") [] (by decide)
  refine ⟨hfirst.1 [], ?_, hsecond.2.2, hsecond.2.1⟩
  rw [hsecond.1 (str "github")]
  rfl

end LynneSocial.JsonlStorage
