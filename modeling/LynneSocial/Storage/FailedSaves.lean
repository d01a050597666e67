import LynneSocial.Storage.Refinement

/-!
# Saves that throw

`save_items` writes item after item and stops at the first that does not
serialise; `save_summary` has emptied the file before it serialises. What a
later load returns is computed here for any disk, any date and any argument, and
with it when a save that threw left the loaded value as it was.
-/
namespace LynneSocial.JsonlStorage

open FileSystem

def completeLines (content : Str) : List Str := (content.splitOn newline).dropLast

/-- What follows the last newline, possibly nothing. -/
def lastLine (content : Str) : Str := (content.splitOn newline).getLastD []

theorem splitOn_eq (content : Str) :
    content.splitOn newline = completeLines content ++ [lastLine content] := by
  have hne : content.splitOn newline ≠ [] := by simp
  rw [completeLines, lastLine, List.getLastD_eq_getLast?, List.getLast?_eq_some_getLast hne]
  exact (List.dropLast_append_getLast hne).symm

/-- The lines of a file that something is appended to. -/
theorem splitOn_append (content x : Str) : (content ++ x).splitOn newline =
    completeLines content ++ (lastLine content ++ x).splitOn newline := by
  by_cases h : newline ∈ content
  · obtain ⟨pre, tail, rfl, htail⟩ : ∃ pre tail, content = pre ++ newline :: tail ∧ newline ∉ tail := by
      obtain ⟨as, bs, heq, has⟩ := List.eq_append_cons_of_mem (List.mem_reverse.mpr h)
      refine ⟨bs.reverse, as.reverse, ?_, by simpa using has⟩
      simpa using congrArg List.reverse heq
    have hsplit : (pre ++ newline :: tail).splitOn newline = pre.splitOn newline ++ [tail] := by
      rw [List.splitOn_append_cons_self, List.splitOn_eq_singleton htail]
    have hlines : completeLines (pre ++ newline :: tail) = pre.splitOn newline := by
      rw [completeLines, hsplit, List.dropLast_concat]
    have hlast : lastLine (pre ++ newline :: tail) = tail := by
      simp [lastLine, hsplit]
    rw [hlines, hlast, List.append_assoc, List.cons_append, List.splitOn_append_cons_self]
  · have hsplit := List.splitOn_eq_singleton h
    simp [completeLines, lastLine, hsplit]

theorem newline_lastLine (content : Str) : newline ∉ lastLine content := by
  have h := splitOn_append content []
  rw [List.append_nil, List.append_nil, splitOn_eq] at h
  intro hmem
  have hlen : 2 ≤ ((lastLine content).splitOn newline).length := by
    obtain ⟨as, bs, heq, -⟩ := List.eq_append_cons_of_mem hmem
    rw [heq, List.splitOn_append_cons_self, List.length_append]
    have has := List.length_pos_iff.mpr (List.splitOn_ne_nil newline as)
    have hbs := List.length_pos_iff.mpr (List.splitOn_ne_nil newline bs)
    omega
  have := congrArg List.length h
  simp only [List.length_append, List.length_singleton] at this
  omega

section
variable (c : JsonCodec)

/-- `load_items` of a file, without a filter. -/
def readFile (content : Str) : Option (List UnifiedItem) :=
  readItems c [] (content.splitOn newline)

theorem readItems_singleton {line : Str} (h : line ≠ []) :
    readItems c [] [line] = (readItem c line).map ([·]) := by
  cases hr : readItem c line <;> simp [readItems, h, hr]

theorem readFile_eq (content : Str) : readFile c content = do
    let items ← readItems c [] (completeLines content)
    let more ← readItems c [] [lastLine content]
    return items ++ more := by
  rw [readFile, splitOn_eq, readItems_append]

/-- The first new line is glued to whatever the file ended in. -/
theorem readFile_append (content t : Str) (ts : List Str) (ht : t ≠ [] ∧ newline ∉ t)
    (hts : ∀ t ∈ ts, newline ∉ t) : readFile c (content ++ block (t :: ts)) = do
      let items ← readItems c [] (completeLines content)
      let item ← readItem c (lastLine content ++ t)
      let more ← readItems c [] ts
      return items ++ item :: more := by
  have hline : newline ∉ lastLine content ++ t := by
    simpa using ⟨newline_lastLine content, ht.2⟩
  have hne : lastLine content ++ t ≠ [] := by simp [ht.1]
  have hblock : block (t :: ts) = t ++ newline :: block ts := by simp [block]
  have hlines : (content ++ block (t :: ts)).splitOn newline =
      completeLines content ++ ([lastLine content ++ t] ++ (ts ++ [[]])) := by
    rw [splitOn_append, hblock, ← List.append_assoc, List.splitOn_append_cons_self,
      List.splitOn_eq_singleton hline, splitOn_block hts]
  rw [readFile, hlines, readItems_append, readItems_append, readItems_append,
    readItems_singleton c hne]
  cases readItems c [] (completeLines content) with
  | none => rfl
  | some items =>
      cases readItem c (lastLine content ++ t) with
      | none => rfl
      | some item => cases readItems c [] ts <;> simp [readItems]

/-- What makes lines of items invisible to a load that they follow `content`: no
line was written; or a complete line cannot be read anyway; or the last line is
not complete, and as it is and with the first new line glued to it it gives the
same item, none more following, or none at all. -/
def Unseen (content : Str) : List Str → Prop
  | [] => True
  | t :: ts =>
    readItems c [] (completeLines content) = none ∨
      lastLine content ≠ [] ∧ readItem c (lastLine content) = readItem c (lastLine content ++ t) ∧
        (ts = [] ∨ readItem c (lastLine content) = none)

variable {c}

theorem readFile_append_iff {content : Str} {ts : List Str}
    (hlines : ∀ t ∈ ts, t ≠ [] ∧ newline ∉ t) (hread : ∀ t ∈ ts, (readItem c t).isSome = true) :
    readFile c (content ++ block ts) = readFile c content ↔ Unseen c content ts := by
  cases ts with
  | nil => simp [block, Unseen]
  | cons t ts =>
      have ht := hlines t List.mem_cons_self
      have hmore : ∀ us, (∀ u ∈ us, u ∈ t :: ts) →
          ∃ more, readItems c [] us = some more ∧ more.length = us.length := by
        intro us hus
        induction us with
        | nil => exact ⟨[], rfl, rfl⟩
        | cons u us ih =>
            obtain ⟨more, hm, hlen⟩ := ih fun v hv => hus v (List.mem_cons_of_mem _ hv)
            have hu := hus u List.mem_cons_self
            obtain ⟨x, hx⟩ := Option.isSome_iff_exists.mp (hread u hu)
            refine ⟨x :: more, ?_, by simp [hlen]⟩
            simp [readItems, (hlines u hu).1, hx, hm]
      obtain ⟨more, hm, hlen⟩ := hmore ts fun u hu => List.mem_cons_of_mem _ hu
      rw [readFile_append c content t ts ht fun u hu => (hlines u (List.mem_cons_of_mem _ hu)).2,
        readFile_eq, hm, Unseen]
      cases readItems c [] (completeLines content) with
      | none => simp
      | some items =>
          by_cases hlast : lastLine content = []
          · obtain ⟨x, hx⟩ := Option.isSome_iff_exists.mp (hread t List.mem_cons_self)
            simp [hlast, readItems, hx]
          · rw [readItems_singleton c hlast]
            cases hb : readItem c (lastLine content) <;>
              cases ha : readItem c (lastLine content ++ t) <;> simp [hlast]
            rename_i x y
            have hnil : more = [] ↔ ts = [] := by
              rw [← List.length_eq_zero_iff, ← List.length_eq_zero_iff, hlen]
            rw [hnil]
            exact ⟨fun h => ⟨h.1.symm, h.2⟩, fun h => ⟨h.1.symm, h.2⟩⟩

theorem serialized_reads (hc : c.Lawful) {items : List UnifiedItem}
    (h : ∀ item ∈ items, item.metrics.wellFormed = true) :
    ∀ t ∈ (serialized c items).1, (readItem c t).isSome = true := by
  induction items with
  | nil => simp [serialized]
  | cons item rest ih =>
      cases ht : c.dump item.toJson with
      | none => simp [serialized, ht]
      | some t =>
          simp only [serialized, ht, List.mem_cons, forall_eq_or_imp]
          refine ⟨?_, ih fun x hx => h x (List.mem_cons_of_mem _ hx)⟩
          rw [readItem_dump hc (h item List.mem_cons_self) ht]
          rfl

/-- A file that was written to by a load is never the empty list. -/
theorem readFile_append_ne {content : Str} {ts : List Str} (hne : ts ≠ [])
    (hlines : ∀ t ∈ ts, t ≠ [] ∧ newline ∉ t) : readFile c (content ++ block ts) ≠ some [] := by
  cases ts with
  | nil => exact absurd rfl hne
  | cons t ts =>
      rw [readFile_append c content t ts (hlines t List.mem_cons_self)
        fun u hu => (hlines u (List.mem_cons_of_mem _ hu)).2]
      intro h
      simp only [Option.bind_eq_bind, Option.pure_def, Option.bind_eq_some_iff,
        Option.some.injEq] at h
      obtain ⟨items, -, item, -, more, -, heq⟩ := h
      simp at heq

end

variable (c : JsonCodec) (st : JsonlStorage) (today : Str) (fs : Disk)

/-- `date_dir`, as far as the disk is concerned. -/
def madeDir (date : Str) : Disk × Option Loc :=
  fs.createDirectories (append st.dataDir (dateOr today date))

def itemsPath (date : Str) : Str := st.pathOf (dateOr today date) itemsFile

def summaryPath (date : Str) : Str := st.pathOf (dateOr today date) summaryFile

/-- The save gets as far as an open file. -/
def Opens (date path : Str) : Prop :=
  (madeDir st today fs date).2.isSome = true ∧
    ((madeDir st today fs date).1.openAppend path).2.isSome = true

theorem madeDir_extends (date : Str) : Disk.Extends fs (madeDir st today fs date).1 :=
  Disk.mkdirs_extends ..

variable {st} {today} {fs} {date : Str}

/-- The disk a save goes on with once the file is open. -/
theorem Opens.open {path : Str} (h : Opens st today fs date path) (keep : Str → Str)
    (hkeep : keep [] = []) :
    ∃ gs l, st.dateDir fs (dateOr today date) = (gs, some (append st.dataDir (dateOr today date))) ∧
      gs = (madeDir st today fs date).1 ∧ gs.resolve path = some l ∧ gs.status path ≠ some .dir ∧
      gs.openWith keep path = (gs.set l (.file (keep (contentOf (gs.status path)))), some l) := by
  obtain ⟨hmade, hopen⟩ := h
  cases hm : madeDir st today fs date with
  | mk gs k =>
      rw [hm] at hmade hopen
      obtain ⟨k, rfl⟩ := Option.isSome_iff_exists.mp hmade
      rw [Disk.openAppend, Disk.openWith_isSome id keep] at hopen
      have hdir : st.dateDir fs (dateOr today date) =
          (gs, some (append st.dataDir (dateOr today date))) := by
        rw [madeDir] at hm
        rw [dateDir, hm]
      rcases Disk.openWith_cases _ hkeep gs path with hc | ⟨l, hl, hs, ho⟩
      · rw [hc] at hopen
        cases hopen
      · exact ⟨gs, l, hdir, rfl, hl, hs, ho⟩

theorem not_opens_cases {path : Str} (h : ¬ Opens st today fs date path) (keep : Str → Str)
    (hkeep : keep [] = []) :
    st.dateDir fs (dateOr today date) = ((madeDir st today fs date).1, none) ∨
      st.dateDir fs (dateOr today date) =
        ((madeDir st today fs date).1, some (append st.dataDir (dateOr today date))) ∧
      (madeDir st today fs date).1.openWith keep path = ((madeDir st today fs date).1, none) := by
  cases hm : madeDir st today fs date with
  | mk gs k =>
      simp only [Opens, hm, not_and] at h
      have hdir : st.dateDir fs (dateOr today date) =
          (gs, k.map fun _ => append st.dataDir (dateOr today date)) := by
        rw [madeDir] at hm
        rw [dateDir, hm]
        cases k <;> rfl
      cases k with
      | none => exact .inl hdir
      | some k =>
          refine .inr ⟨hdir, ?_⟩
          have hno := h rfl
          rw [Disk.openAppend, Disk.openWith_isSome id keep] at hno
          rcases Disk.openWith_cases _ hkeep gs path with hc | ⟨l, -, -, ho⟩
          · exact hc
          · exact absurd (by rw [ho]; rfl) hno

theorem saveItems_of_opens (items : List UnifiedItem)
    (h : Opens st today fs date (itemsPath st today date)) :
    (st.saveItems c today fs items date).1.status (itemsPath st today date) =
      some (.file (contentOf ((madeDir st today fs date).1.status (itemsPath st today date)) ++
        block (serialized c items).1)) := by
  obtain ⟨gs, l, hdir, hgs, hl, hs, ho⟩ := h.open id rfl
  simp only [saveItems, hdir, Disk.openAppend, writeItems_eq, ← hgs]
  rw [itemsPath, pathOf] at *
  rw [ho, Disk.write_set]
  exact Disk.status_set_file hl hs _

theorem saveItems_of_not_opens (items : List UnifiedItem)
    (h : ¬ Opens st today fs date (itemsPath st today date)) :
    (st.saveItems c today fs items date).1 = (madeDir st today fs date).1 := by
  rcases not_opens_cases h id rfl with hdir | ⟨hdir, ho⟩
  · simp only [saveItems, hdir]
  · rw [itemsPath, pathOf] at ho
    simp only [saveItems, hdir, Disk.openAppend, ho, writeItems_eq]
    rfl

theorem saveSummary_of_opens {summary : Json} (hdump : c.dumpIndented summary = none)
    (h : Opens st today fs date (summaryPath st today date)) :
    (st.saveSummary c today fs summary date).1.status (summaryPath st today date) =
      some (.file []) := by
  obtain ⟨gs, l, hdir, hgs, hl, hs, ho⟩ := h.open (fun _ => []) rfl
  rw [summaryPath, pathOf] at *
  simp only [saveSummary, hdir, Disk.openTruncate, ho, hdump]
  exact Disk.status_set_file hl hs _

theorem saveSummary_of_not_opens {summary : Json}
    (hthrow : (st.saveSummary c today fs summary date).2 = false)
    (h : ¬ Opens st today fs date (summaryPath st today date)) :
    (st.saveSummary c today fs summary date).1 = (madeDir st today fs date).1 := by
  rcases not_opens_cases h (fun _ => []) rfl with hdir | ⟨hdir, ho⟩
  · simp only [saveSummary, hdir]
  · rw [summaryPath, pathOf] at ho
    simp only [saveSummary, hdir, Disk.openTruncate, ho] at hthrow ⊢
    cases hd : c.dumpIndented summary with
    | none => rfl
    | some t => simp [hd] at hthrow

variable (st) (today) (fs) (date)

/-- Making the directory leaves what the date loads alone (only a `..` in the date can
make a difference), and the lines written before the exception cannot be seen. -/
def ItemsKept (items : List UnifiedItem) : Prop :=
  itemsOf c [] ((madeDir st today fs date).1.status (itemsPath st today date)) =
      itemsOf c [] (fs.status (itemsPath st today date)) ∧
    (Opens st today fs date (itemsPath st today date) →
      Unseen c (contentOf ((madeDir st today fs date).1.status (itemsPath st today date)))
        (serialized c items).1)

/-- Either the file did not open, or the summary that was emptied could not be loaded. -/
def SummaryKept : Prop :=
  (Opens st today fs date (summaryPath st today date) →
    summaryOf c (fs.status (summaryPath st today date)) = none) ∧
  (¬ Opens st today fs date (summaryPath st today date) →
    summaryOf c ((madeDir st today fs date).1.status (summaryPath st today date)) =
      summaryOf c (fs.status (summaryPath st today date)))

variable {c} {st} {today} {fs} {date}

theorem saveItems_kept_iff (hc : c.Lawful) {items : List UnifiedItem}
    (hitems : ∀ item ∈ items, item.metrics.wellFormed = true) :
    st.loadItems c today (st.saveItems c today fs items date).1 date [] =
        st.loadItems c today fs date [] ↔ ItemsKept c st today fs date items := by
  change itemsOf c [] (Disk.status _ (itemsPath st today date)) =
    itemsOf c [] (fs.status (itemsPath st today date)) ↔ _
  by_cases h : Opens st today fs date (itemsPath st today date)
  · rw [saveItems_of_opens c items h, ItemsKept]
    have hmid : itemsOf c [] ((madeDir st today fs date).1.status (itemsPath st today date)) =
        readFile c (contentOf ((madeDir st today fs date).1.status (itemsPath st today date))) := by
      obtain ⟨gs, l, -, rfl, -, hs, -⟩ := h.open id rfl
      cases hn : (madeDir st today fs date).1.status (itemsPath st today date) with
      | none => rfl
      | some n =>
          cases n with
          | dir => exact absurd hn hs
          | file x => rfl
    have hlines : ∀ t ∈ (serialized c items).1, t ≠ [] ∧ newline ∉ t := serialized_line hc
    have hreads := serialized_reads hc hitems
    rw [hmid]
    change readFile c _ = _ ↔ _
    by_cases hsame : readFile c (contentOf ((madeDir st today fs date).1.status
        (itemsPath st today date))) = itemsOf c [] (fs.status (itemsPath st today date))
    · rw [← hsame, readFile_append_iff hlines hreads]
      simp [h]
    · have hbefore : itemsOf c [] (fs.status (itemsPath st today date)) = some [] := by
        cases hn : fs.status (itemsPath st today date) with
        | none => rfl
        | some n =>
            rw [← hmid, hn, (madeDir_extends st today fs date).status hn] at hsame
            exact absurd rfl hsame
      refine ⟨fun hafter => ?_, fun hk => absurd hk.1 hsame⟩
      rw [hbefore] at hafter hsame
      cases hts : (serialized c items).1 with
      | nil =>
          rw [hts] at hafter
          exact absurd (by simpa [block] using hafter) hsame
      | cons t ts => exact absurd hafter (readFile_append_ne (by simp [hts]) hlines)
  · rw [saveItems_of_not_opens c items h, ItemsKept]
    simp [h]

theorem saveSummary_kept_iff (hc : c.Lawful) {summary : Json}
    (hthrow : (st.saveSummary c today fs summary date).2 = false) :
    st.loadSummary c today (st.saveSummary c today fs summary date).1 date =
        st.loadSummary c today fs date ↔ SummaryKept c st today fs date := by
  change summaryOf c (Disk.status _ (summaryPath st today date)) =
    summaryOf c (fs.status (summaryPath st today date)) ↔ _
  by_cases h : Opens st today fs date (summaryPath st today date)
  · have hdump : c.dumpIndented summary = none := by
      obtain ⟨gs, l, hdir, -, -, -, ho⟩ := h.open (fun _ => []) rfl
      rw [summaryPath, pathOf] at ho
      simp only [saveSummary, hdir, Disk.openTruncate, ho] at hthrow
      cases hd : c.dumpIndented summary with
      | none => rfl
      | some t => simp [hd] at hthrow
    have hempty : summaryOf c (some (.file [])) = none := hc.parse_nil
    rw [saveSummary_of_opens c hdump h, hempty, SummaryKept]
    simp [h, eq_comm]
  · rw [saveSummary_of_not_opens c hthrow h, SummaryKept]
    simp [h]

/-- When a save that throws leaves what is loaded as it was, for items and for summaries. -/
theorem failed_save_keeps_iff (c : JsonCodec) (hc : c.Lawful) (st : JsonlStorage) (today : Str)
    (fs : Disk) (date : Str) :
    (∀ items : List UnifiedItem, (∀ item ∈ items, item.metrics.wellFormed = true) →
      (st.saveItems c today fs items date).2 = false →
        (st.loadItems c today (st.saveItems c today fs items date).1 date [] =
          st.loadItems c today fs date [] ↔ ItemsKept c st today fs date items)) ∧
    ∀ summary : Json, (st.saveSummary c today fs summary date).2 = false →
      (st.loadSummary c today (st.saveSummary c today fs summary date).1 date =
        st.loadSummary c today fs date ↔ SummaryKept c st today fs date) :=
  ⟨fun _ hitems _ => saveItems_kept_iff hc hitems, fun _ hthrow => saveSummary_kept_iff hc hthrow⟩

/-- An item whose text is not UTF-8. -/
def brokenItem : UnifiedItem := { contentText := [0xFF] }

def brokenSummary : Json := .str [0xFF]

theorem sampleCodec_broken : sampleCodec.dump brokenItem.toJson = none ∧
    sampleCodec.dumpIndented brokenSummary = none := by
  have hitem : brokenItem.toJson.dumpable = false := by decide
  have hsummary : brokenSummary.dumpable = false := by decide
  have hlines := JsonText.dump_isSome JsonText.exactDigits .compact 0 brokenItem.toJson
  have hindented := JsonText.dump_isSome JsonText.exactDigits .indented 0 brokenSummary
  rw [hitem] at hlines
  rw [hsummary] at hindented
  exact ⟨Option.isNone_iff_eq_none.mp (Option.isSome_eq_false_iff.mp hlines),
    Option.isNone_iff_eq_none.mp (Option.isSome_eq_false_iff.mp hindented)⟩

theorem saveItems_throws {items : List UnifiedItem} (h : (serialized c items).2 = false) :
    (st.saveItems c today fs items date).2 = false := by
  unfold saveItems
  split
  · rfl
  · simp only [writeItems_eq, h]

theorem sampleStorage_opens : Opens sampleStorage [] {} (str "2024-01-01")
      (itemsPath sampleStorage [] (str "2024-01-01")) ∧
    Opens sampleStorage [] {} (str "2024-01-01")
      (summaryPath sampleStorage [] (str "2024-01-01")) := by
  unfold Opens
  decide +kernel

/-- A broken item in front of the others leaves no trace of the save. -/
theorem failed_save_keeps_sample :
    (sampleStorage.saveItems sampleCodec [] {} [brokenItem, sampleItem] (str "2024-01-01")).2 =
        false ∧
      sampleStorage.loadItems sampleCodec []
        (sampleStorage.saveItems sampleCodec [] {} [brokenItem, sampleItem] (str "2024-01-01")).1
        (str "2024-01-01") [] =
      sampleStorage.loadItems sampleCodec [] {} (str "2024-01-01") [] := by
  have hserialized : serialized sampleCodec [brokenItem, sampleItem] = ([], false) := by
    simp [serialized, sampleCodec_broken.1]
  have hthrow : (sampleStorage.saveItems sampleCodec [] {} [brokenItem, sampleItem]
      (str "2024-01-01")).2 = false := saveItems_throws (by rw [hserialized])
  refine ⟨hthrow, ((failed_save_keeps_iff sampleCodec sampleCodec_lawful sampleStorage [] {}
    (str "2024-01-01")).1 [brokenItem, sampleItem] ?_ hthrow).mpr ⟨rfl, fun _ => ?_⟩⟩
  · simp only [List.forall_mem_cons]
    exact ⟨by decide, by decide, by simp⟩
  · rw [hserialized]
    trivial

/-- Behind a good item the exception leaves that item stored; a summary is gone at once. -/
theorem failed_save_loses :
    ((sampleStorage.saveItems sampleCodec [] {} [sampleItem, brokenItem] (str "2024-01-01")).2 =
        false ∧
      sampleStorage.loadItems sampleCodec [] {} (str "2024-01-01") [] = some [] ∧
      sampleStorage.loadItems sampleCodec []
        (sampleStorage.saveItems sampleCodec [] {} [sampleItem, brokenItem] (str "2024-01-01")).1
        (str "2024-01-01") [] = some [sampleItem]) ∧
    (sampleStorage.saveSummary sampleCodec [] {} brokenSummary (str "2024-01-01")).2 = false ∧
      sampleStorage.loadSummary sampleCodec [] {} (str "2024-01-01") = some .null ∧
      sampleStorage.loadSummary sampleCodec []
        (sampleStorage.saveSummary sampleCodec [] {} brokenSummary (str "2024-01-01")).1
        (str "2024-01-01") = none := by
  obtain ⟨hitems, hsummary⟩ := sampleStorage_opens
  obtain ⟨hclean, hwell⟩ := sampleItem_admissible
  obtain ⟨t, ht⟩ := Option.isSome_iff_exists.mp
    (sampleCodec_lawful.dump_isSome _ hclean.toJson_dumpable)
  have hread : readItem sampleCodec t = some sampleItem := by
    rw [readItem_dump sampleCodec_lawful hwell ht, Json.written_of_finite _ hclean.finite]
  have hserialized : serialized sampleCodec [sampleItem, brokenItem] = ([t], false) := by
    simp [serialized, ht, sampleCodec_broken.1]
  refine ⟨⟨saveItems_throws (by rw [hserialized]), rfl, ?_⟩, ?_, rfl, ?_⟩
  · change itemsOf sampleCodec [] (Disk.status _ (itemsPath sampleStorage [] (str "2024-01-01"))) = _
    rw [saveItems_of_opens sampleCodec _ hitems, hserialized]
    change readFile sampleCodec ([] ++ block [t]) = _
    rw [readFile_append sampleCodec [] t [] (sampleCodec_lawful.line _ t ht) (by simp)]
    simp [completeLines, lastLine, readItems, hread]
  · simp only [saveSummary]
    split
    · rfl
    · simp only [sampleCodec_broken.2]
  · change summaryOf sampleCodec
      (Disk.status _ (summaryPath sampleStorage [] (str "2024-01-01"))) = _
    rw [saveSummary_of_opens sampleCodec sampleCodec_broken.2 hsummary]
    exact sampleCodec_lawful.parse_nil

end LynneSocial.JsonlStorage
