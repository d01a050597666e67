import LynneSocial.Lib.Decimal
import LynneSocial.Storage.Refinement
import Mathlib.Data.Set.List

/-!
# The dates of the storage

A save makes the directory of its date, whatever becomes of the rest of it, and
a load makes nothing. So after any run the directories below `data_dir_` are
those that were there and those of the dates that were saved to. Where a file is
in the way, or the directory is not allowed, the save throws and there is none.
-/
namespace LynneSocial.JsonlStorage

open FileSystem

/-- A date as `YYYY-MM-DD` writes it; that no month has more days than it should is not asked for. -/
structure Date where
  year : ℕ
  month : ℕ
  day : ℕ
  year_lt : year < 10000
  month_mem : 1 ≤ month ∧ month ≤ 12
  day_mem : 1 ≤ day ∧ day ≤ 31

namespace Date

def dash : UInt8 := 45

def iso (d : Date) : Str :=
  Decimal.padded 4 d.year ++ dash :: (Decimal.padded 2 d.month ++ dash :: Decimal.padded 2 d.day)

/-- The order of the calendar. -/
def Before (d e : Date) : Prop :=
  d.year < e.year ∨ d.year = e.year ∧ (d.month < e.month ∨ d.month = e.month ∧ d.day < e.day)

theorem iso_lt_iff (d e : Date) : d.iso < e.iso ↔ d.Before e := by
  have hmonth := d.month_mem
  have hmonth' := e.month_mem
  have hday := d.day_mem
  have hday' := e.day_mem
  have hcons : ∀ xs ys : Str, dash :: xs < dash :: ys ↔ xs < ys := by simp
  unfold iso Before
  rw [Decimal.append_lt_append_iff (by simp), Decimal.padded_lt_iff d.year_lt e.year_lt,
    Decimal.padded_inj d.year_lt e.year_lt, hcons, Decimal.append_lt_append_iff (by simp),
    Decimal.padded_lt_iff (by omega) (by omega), Decimal.padded_inj (by omega) (by omega), hcons,
    Decimal.padded_lt_iff (by omega) (by omega)]

theorem iso_injective : Function.Injective iso := by
  intro d e h
  have hde := (iso_lt_iff d e).not.mp (h ▸ List.lt_irrefl _)
  have hed := (iso_lt_iff e d).not.mp (h ▸ List.lt_irrefl _)
  unfold Before at hde hed
  have hyear : d.year = e.year := by omega
  have hmonth : d.month = e.month := by omega
  have hday : d.day = e.day := by omega
  cases d
  cases e
  simp_all

theorem mem_iso {d : Date} {a : UInt8} (ha : a ∈ d.iso) : 45 ≤ a.toNat ∧ a.toNat ≠ 47 := by
  have hmonth := d.month_mem
  have hday := d.day_mem
  have hpadded : ∀ {w n}, n < 10 ^ w → a ∈ Decimal.padded w n → 45 ≤ a.toNat ∧ a.toNat ≠ 47 := by
    intro w n hn ha
    have hdigit := Decimal.toNat_of_mem_padded hn ha
    omega
  have hdash : dash.toNat = 45 := rfl
  simp only [iso, List.mem_append, List.mem_cons] at ha
  rcases ha with ha | rfl | ha | rfl | ha
  · exact hpadded d.year_lt ha
  · omega
  · exact hpadded (by omega) ha
  · omega
  · exact hpadded (by omega) ha

theorem iso_length (d : Date) : d.iso.length = 10 := by simp [iso]

theorem iso_plain (d : Date) : Plain d.iso := by
  have hlen := d.iso_length
  refine ⟨?_, fun h => (mem_iso h).2 rfl, fun h => absurd (mem_iso h).1 (by decide), ?_, ?_⟩
  all_goals
    intro h
    rw [h] at hlen
    simp at hlen

theorem iso_ne_sessions (d : Date) : d.iso ≠ str "sessions" := by
  intro h
  have hlen := d.iso_length
  rw [h] at hlen
  exact absurd hlen (by decide)

end Date

def Op.date : Op → Str
  | .saveItems _ d | .saveReport _ d | .saveSummary _ d => d
  | .loadItems d _ | .loadReport d | .loadSummary d => d

def Op.isSave : Op → Bool
  | .saveItems _ _ | .saveReport _ _ | .saveSummary _ _ => true
  | _ => false

/-- The call saves something for this date. -/
def Call.Saves (call : Call) (d : Str) : Prop := call.op.isSave = true ∧ call.op.date = d

instance (call : Call) (d : Str) : Decidable (call.Saves d) := by
  unfold Call.Saves
  infer_instance

variable (c : JsonCodec) {st : JsonlStorage} {b : Loc} {fs gs : Disk}

/-- A save goes on with the directory of its date made, or throws; in the end it has put one file. -/
theorem exec_cases (st : JsonlStorage) (today : Str) (fs : Disk) {op : Op} (hd : Plain op.date) :
    (op.isSave = false ∧ (st.exec c today fs op).1 = fs) ∨
    op.isSave = true ∧ ∃ name ∈ fileNames,
      Disk.Puts (fs.createDirectories (append st.dataDir op.date)).1 (st.exec c today fs op).1
        (append (append st.dataDir op.date) name) := by
  have hdir : ∀ d, Plain d → st.dateDir fs (dateOr today d) =
      ((fs.createDirectories (append st.dataDir d)).1,
        (fs.createDirectories (append st.dataDir d)).2.map fun _ => append st.dataDir d) := by
    intro d hd
    rw [dateOr, if_neg hd.nonempty, dateDir]
    cases h : fs.createDirectories (append st.dataDir d) with
    | mk gs l => cases l <;> rfl
  cases op with
  | saveItems items d =>
      refine .inr ⟨rfl, itemsFile, itemsFile_mem, ?_⟩
      simp only [exec, ended, saveItems, hdir d hd, Op.date]
      cases (fs.createDirectories (append st.dataDir d)).2 with
      | none => exact .inl rfl
      | some l =>
          simp only [Option.map_some, writeItems_eq]
          exact Disk.openWith_write_puts id rfl _ _ _
  | saveReport markdown d =>
      refine .inr ⟨rfl, reportFile, reportFile_mem, ?_⟩
      simp only [exec, ended, saveReport, hdir d hd, Op.date]
      cases (fs.createDirectories (append st.dataDir d)).2 with
      | none => exact .inl rfl
      | some l => exact Disk.openWith_write_puts (fun _ => []) rfl _ _ _
  | saveSummary summary d =>
      refine .inr ⟨rfl, summaryFile, summaryFile_mem, ?_⟩
      simp only [exec, ended, saveSummary, hdir d hd, Op.date]
      cases (fs.createDirectories (append st.dataDir d)).2 with
      | none => exact .inl rfl
      | some l =>
          simp only [Option.map_some]
          cases c.dumpIndented summary with
          | none =>
              have hputs := Disk.openWith_write_puts (fun _ => []) rfl
                (fs.createDirectories (append st.dataDir d)).1 (append (append st.dataDir d) summaryFile) []
              rwa [Disk.write_nil] at hputs
          | some t => exact Disk.openWith_write_puts (fun _ => []) rfl _ _ _
  | _ => exact .inl ⟨rfl, rfl⟩

/-- A file put below a date leaves the directories of `data_dir_` as they are. -/
theorem puts_below {d name : Str} (h : Disk.Leads fs st.dataDir b) (hd : Plain d) (hn : Plain name)
    (hp : Disk.Puts fs gs (append (append st.dataDir d) name)) :
    Disk.Leads gs st.dataDir b ∧ gs.denied = fs.denied ∧ ∀ e, gs.nodes (b ++ [e]) = fs.nodes (b ++ [e]) := by
  rcases hp with rfl | ⟨l, x, hl, hs, rfl⟩
  · exact ⟨h, rfl, fun _ => rfl⟩
  · have hnode : fs.nodeAt l ≠ some .dir := by rwa [Disk.status, hl] at hs
    rw [Disk.resolve_below h hd hn] at hl
    split at hl
    · obtain rfl := Option.some.inj hl
      refine ⟨h.of_dirs rfl fun k hk => ?_, rfl, fun e => Function.update_of_ne ?_ ..⟩
      · rwa [Disk.isDir_set_file hnode]
      · exact fun heq => by simpa using congrArg List.length heq
    · cases hl

/-- What a call does to what is below `data_dir_`. -/
theorem exec_below (h : Disk.Leads fs st.dataDir b) (today : Str) {op : Op} (hd : Plain op.date) :
    Disk.Leads (st.exec c today fs op).1 st.dataDir b ∧
    (st.exec c today fs op).1.denied = fs.denied ∧
    ∀ e, (st.exec c today fs op).1.nodes (b ++ [e]) =
      if (op.isSave = true ∧ op.date = e) ∧ fs.Free (b ++ [e]) then some .dir else fs.nodes (b ++ [e]) := by
  rcases exec_cases c st today fs hd with ⟨hload, heq⟩ | ⟨hsave, name, hname, hputs⟩
  · rw [heq]
    exact ⟨h, rfl, fun e => by simp [hload]⟩
  · rw [Disk.createDirectories_child h hd] at hputs
    have hn := fileNames_plain name hname
    split at hputs
    · rename_i hdir
      have hnode : fs.nodes (b ++ [op.date]) = some .dir := by simpa [Disk.isDir] using hdir
      obtain ⟨hl, hden, hnodes⟩ := puts_below h hd hn hputs
      refine ⟨hl, hden, fun e => ?_⟩
      rw [hnodes, if_neg]
      rintro ⟨⟨-, rfl⟩, hfree⟩
      rw [hfree.1] at hnode
      cases hnode
    · rename_i hnodir
      split at hputs
      · rename_i hblocked
        obtain ⟨hl, hden, hnodes⟩ := puts_below h hd hn hputs
        refine ⟨hl, hden, fun e => ?_⟩
        rw [hnodes, if_neg]
        rintro ⟨⟨-, rfl⟩, hfree⟩
        simp [hfree.1, hfree.2] at hblocked
      · rename_i hfree
        simp only [Bool.or_eq_true, not_or, Bool.not_eq_true, Option.isSome_eq_false_iff,
          Option.isNone_iff_eq_none] at hfree
        have hmade : Disk.Leads (fs.set (b ++ [op.date]) .dir) st.dataDir b :=
          h.of_dirs rfl fun _ => (Disk.extends_set_dir hfree.1).isDir
        obtain ⟨hl, hden, hnodes⟩ := puts_below hmade hd hn hputs
        refine ⟨hl, hden, fun e => ?_⟩
        rw [hnodes, Disk.set_nodes, Function.update_apply]
        by_cases he : e = op.date
        · subst he
          rw [if_pos rfl, if_pos ⟨⟨hsave, rfl⟩, hfree⟩]
        · rw [if_neg (by simpa using he), if_neg fun h => he h.1.2.symm]

/-- What a run does to what is below `data_dir_`. -/
theorem run_below (h : Disk.Leads fs st.dataDir b) {calls : List Call}
    (hcalls : ∀ call ∈ calls, Plain call.op.date) :
    Disk.Leads (st.run c fs calls).1 st.dataDir b ∧ ∀ e, (st.run c fs calls).1.nodes (b ++ [e]) =
      if (∃ call ∈ calls, call.Saves e) ∧ fs.Free (b ++ [e]) then some .dir else fs.nodes (b ++ [e]) := by
  induction calls generalizing fs with
  | nil => exact ⟨h, fun e => by simp [run]⟩
  | cons call calls ih =>
      rw [List.forall_mem_cons] at hcalls
      obtain ⟨hl, hden, hnodes⟩ := exec_below c h call.today hcalls.1
      obtain ⟨hl', hnodes'⟩ := ih hl hcalls.2
      refine ⟨hl', fun e => (hnodes' e).trans ?_⟩
      have hsaves : (∃ x ∈ call :: calls, x.Saves e) ↔ call.Saves e ∨ ∃ x ∈ calls, x.Saves e := by simp
      simp only [hsaves, Disk.Free, hden, hnodes e]
      by_cases hfree : fs.nodes (b ++ [e]) = none ∧ fs.denied (b ++ [e]) = false
      · have hsave : (call.op.isSave = true ∧ call.op.date = e) ↔ call.Saves e := .rfl
        by_cases hcall : call.Saves e <;> simp [hsave, hcall, hfree.1, hfree.2]
      · simp [hfree]

theorem listDates_leads (h : Disk.Leads fs st.dataDir b) {entries : List Str}
    (hentries : ∀ n ∈ entries, Plain n) : st.listDates fs entries =
      some ((entries.filter fun n => fs.nodes (b ++ [n]) == some .dir && n != str "sessions").mergeSort
        fun x y => !decide (x < y)) := by
  have hdir : fs.status st.dataDir = some .dir := by
    rw [Disk.status, Disk.resolve, h.walk, Option.bind_some, Disk.nodeAt]
    have hb := h.isDir
    unfold Disk.isDir at hb
    split <;> simp_all
  have hfilter : entries.filter (fun n => fs.status (append st.dataDir n) == some .dir && n != str "sessions") =
      entries.filter (fun n => fs.nodes (b ++ [n]) == some .dir && n != str "sessions") := by
    refine List.filter_congr fun n hn => ?_
    rw [Disk.status_child h (hentries n hn)]
  simp only [listDates, hdir, hfilter]

/-- Names in descending order, each of them once. -/
theorem descending {names : List Str} (h : names.Nodup) :
    (names.mergeSort fun x y => !decide (x < y)).Pairwise (fun x y => y < x) := by
  have hsorted : (names.mergeSort fun x y => !decide (x < y)).Pairwise fun x y => (!decide (x < y)) = true := by
    refine List.pairwise_mergeSort (fun x y z hxy hyz => ?_) (fun x y => ?_) names
    · simp only [Bool.not_eq_true', decide_eq_false_iff_not, List.not_lt] at *
      exact List.le_trans hyz hxy
    · simp only [Bool.or_eq_true, Bool.not_eq_true', decide_eq_false_iff_not, List.not_lt]
      exact List.le_total y x
  have hnodup := (List.mergeSort_perm names fun x y => !decide (x < y)).nodup_iff.mpr h
  refine hsorted.imp₂ (fun x y hxy hne => ?_) hnodup
  simp only [Bool.not_eq_true', decide_eq_false_iff_not, List.not_lt] at hxy
  exact (List.le_iff_lt_or_eq.mp hxy).resolve_right hne.symm

/-- In whatever order the directory is iterated over, the dates that were saved to and whose
directory could be made are listed, once each and the newest first. -/
theorem listDates_reports (c : JsonCodec) (st : JsonlStorage) (b : Loc) (fs : Disk)
    (hb : Disk.Leads fs st.dataDir b)
    (honly : ∀ n, Plain n → fs.nodes (b ++ [n]) = some .dir → n = str "sessions") (calls : List Call)
    (hcalls : ∀ call ∈ calls, ∃ d : Date, call.op.date = d.iso) (entries : List Str)
    (hentries : Disk.Lists (st.run c fs calls).1 b entries) :
    ∃ dates : List Date, st.listDates (st.run c fs calls).1 entries = some (dates.map Date.iso) ∧
      dates.Pairwise (fun d e => e.Before d) ∧
      ∀ d, d ∈ dates ↔ (∃ call ∈ calls, call.Saves d.iso) ∧ fs.Free (b ++ [d.iso]) := by
  obtain ⟨hleads, hnodes⟩ := run_below c hb fun call hcall => by
    obtain ⟨d, hd⟩ := hcalls call hcall
    exact hd ▸ d.iso_plain
  have hfound : ∀ n, (n ∈ entries ∧ (st.run c fs calls).1.nodes (b ++ [n]) = some .dir ∧ n ≠ str "sessions") ↔
      (∃ call ∈ calls, call.Saves n) ∧ fs.Free (b ++ [n]) := by
    intro n
    constructor
    · rintro ⟨hn, hdir, hne⟩
      rw [hnodes n] at hdir
      split at hdir
      · assumption
      · exact absurd (honly n ((hentries.mem n).mp hn).1 hdir) hne
    · rintro ⟨⟨call, hcall, hsaves⟩, hfree⟩
      obtain ⟨d, hd⟩ := hcalls call hcall
      obtain rfl : n = d.iso := hsaves.2.symm.trans hd
      have hdir : (st.run c fs calls).1.nodes (b ++ [d.iso]) = some .dir := by
        rw [hnodes, if_pos ⟨⟨call, hcall, hsaves⟩, hfree⟩]
      exact ⟨(hentries.mem _).mpr ⟨d.iso_plain, hdir ▸ nofun⟩, hdir, d.iso_ne_sessions⟩
  rw [listDates_leads hleads fun n hn => ((hentries.mem n).mp hn).1]
  obtain ⟨names, hnames⟩ : ∃ names, names = (entries.filter fun n =>
      (st.run c fs calls).1.nodes (b ++ [n]) == some .dir && n != str "sessions").mergeSort
        fun x y => !decide (x < y) := ⟨_, rfl⟩
  have hmem : ∀ n, n ∈ names ↔ (∃ call ∈ calls, call.Saves n) ∧ fs.Free (b ++ [n]) := by
    intro n
    rw [hnames, List.mem_mergeSort, List.mem_filter, ← hfound]
    simp
  have hdesc : names.Pairwise (fun x y => y < x) := hnames ▸ descending (hentries.nodup.filter _)
  rw [← hnames]
  obtain ⟨dates, rfl⟩ : ∃ dates : List Date, dates.map Date.iso = names := by
    have hrange : names ∈ Set.range (List.map Date.iso) := by
      rw [Set.range_list_map]
      intro n hn
      obtain ⟨⟨call, hcall, hsaves⟩, -⟩ := (hmem n).mp hn
      obtain ⟨d, hd⟩ := hcalls call hcall
      exact ⟨d, hd.symm.trans hsaves.2⟩
    exact hrange
  refine ⟨dates, rfl, ?_, fun d => ?_⟩
  · exact (List.pairwise_map.mp hdesc).imp fun h => (Date.iso_lt_iff _ _).mp h
  · rw [← hmem, List.mem_map_of_injective Date.iso_injective]

def newYear : Date := ⟨2024, 1, 1, by decide, by decide, by decide⟩

def lastOfYear : Date := ⟨2023, 12, 31, by decide, by decide, by decide⟩

def dataDirectory : Disk := Disk.set {} [str "data"] .dir

theorem dataDirectory_leads : Disk.Leads dataDirectory sampleStorage.dataDir [str "data"] := by
  constructor <;> decide

/-- A report, an empty list of items, another report for the first date, and a load. -/
def twoDates : List Call :=
  [⟨[], .saveReport (str "# Report") lastOfYear.iso⟩, ⟨[], .saveItems [] newYear.iso⟩,
    ⟨[], .saveReport [] lastOfYear.iso⟩, ⟨[], .loadReport (str "2022-05-05")⟩]

theorem twoDates_dates : ∀ call ∈ twoDates, ∃ d : Date, call.op.date = d.iso := by
  simp only [twoDates, List.forall_mem_cons]
  exact ⟨⟨lastOfYear, rfl⟩, ⟨newYear, rfl⟩, ⟨lastOfYear, rfl⟩,
    ⟨⟨2022, 5, 5, by decide, by decide, by decide⟩, by decide⟩, by simp⟩

theorem dataDirectory_nodes (n : Str) : dataDirectory.nodes ([str "data"] ++ [n]) = none := by
  simp [dataDirectory, Disk.set]

theorem twoDates_lists : Disk.Lists (sampleStorage.run sampleCodec dataDirectory twoDates).1
    [str "data"] [lastOfYear.iso, newYear.iso] := by
  refine ⟨by decide, fun n => ?_⟩
  rw [(run_below sampleCodec dataDirectory_leads fun call hcall => by
    obtain ⟨d, hd⟩ := twoDates_dates call hcall
    exact hd ▸ d.iso_plain).2, dataDirectory_nodes]
  have hsaved : (∃ call ∈ twoDates, call.Saves n) ↔ n = lastOfYear.iso ∨ n = newYear.iso := by
    constructor
    · rintro ⟨call, hcall, hsave, rfl⟩
      simp only [twoDates, List.mem_cons, List.not_mem_nil, or_false] at hcall
      rcases hcall with rfl | rfl | rfl | rfl
      · exact .inl rfl
      · exact .inr rfl
      · exact .inl rfl
      · cases hsave
    · rintro (rfl | rfl)
      · exact ⟨_, List.mem_cons_self, rfl, rfl⟩
      · exact ⟨_, List.mem_cons_of_mem _ List.mem_cons_self, rfl, rfl⟩
  have hfree : dataDirectory.Free ([str "data"] ++ [n]) := ⟨dataDirectory_nodes n, rfl⟩
  simp only [hsaved, hfree, and_true, List.mem_cons, List.not_mem_nil, or_false]
  constructor
  · rintro (rfl | rfl)
    · exact ⟨lastOfYear.iso_plain, by simp⟩
    · exact ⟨newYear.iso_plain, by simp⟩
  · rintro ⟨-, hne⟩
    by_contra hno
    exact hne (if_neg hno)

theorem listDates_reports_sample : ∃ dates : List Date,
    sampleStorage.listDates (sampleStorage.run sampleCodec dataDirectory twoDates).1
      [lastOfYear.iso, newYear.iso] = some (dates.map Date.iso) ∧
    dates.Pairwise (fun d e => e.Before d) ∧ newYear ∈ dates ∧ lastOfYear ∈ dates := by
  obtain ⟨dates, hlist, hdesc, hmem⟩ := listDates_reports sampleCodec sampleStorage [str "data"] dataDirectory
    dataDirectory_leads (fun n _ h => absurd ((dataDirectory_nodes n).symm.trans h) nofun) twoDates
    twoDates_dates [lastOfYear.iso, newYear.iso] twoDates_lists
  refine ⟨dates, hlist, hdesc, (hmem newYear).mpr ?_, (hmem lastOfYear).mpr ?_⟩
  · exact ⟨⟨_, List.mem_cons_of_mem _ List.mem_cons_self, rfl, rfl⟩, dataDirectory_nodes _, rfl⟩
  · exact ⟨⟨_, List.mem_cons_self, rfl, rfl⟩, dataDirectory_nodes _, rfl⟩

/-- A file has the name of the date. -/
def blockedDirectory : Disk := dataDirectory.set [str "data", newYear.iso] (.file [])

/-- The save throws, and the date is not listed. -/
theorem blocked_date_is_not_listed : ¬ ∀ (c : JsonCodec) (st : JsonlStorage) (b : Loc) (fs : Disk),
    Disk.Leads fs st.dataDir b →
    (∀ n, Plain n → fs.nodes (b ++ [n]) = some .dir → n = str "sessions") → ∀ calls : List Call,
    (∀ call ∈ calls, ∃ d : Date, call.op.date = d.iso) → ∀ entries : List Str,
    Disk.Lists (st.run c fs calls).1 b entries →
    ∃ dates : List Date, st.listDates (st.run c fs calls).1 entries = some (dates.map Date.iso) ∧
      dates.Pairwise (fun d e => e.Before d) ∧ ∀ d, d ∈ dates ↔ ∃ call ∈ calls, call.Saves d.iso := by
  have hleads : Disk.Leads blockedDirectory sampleStorage.dataDir [str "data"] := by
    constructor <;> decide
  have hnodes : ∀ n, blockedDirectory.nodes ([str "data"] ++ [n]) =
      if n = newYear.iso then some (.file []) else none := by
    intro n
    simp [blockedDirectory, dataDirectory, Disk.set, Function.update_apply]
  have hrun : (sampleStorage.run sampleCodec blockedDirectory [⟨[], .saveReport [] newYear.iso⟩]).1 =
      blockedDirectory := by
    have hdir : sampleStorage.dateDir blockedDirectory newYear.iso = (blockedDirectory, none) := by
      have hfile : blockedDirectory.nodes ([str "data"] ++ [newYear.iso]) = some (.file []) := by
        rw [hnodes, if_pos rfl]
      rw [dateDir, Disk.createDirectories_child hleads newYear.iso_plain, Disk.isDir, hfile]
      rfl
    have hdate : dateOr [] newYear.iso = newYear.iso := if_neg newYear.iso_plain.nonempty
    simp only [run, exec, saveReport, hdate, hdir, ended]
  intro hall
  obtain ⟨dates, hlist, -, hmem⟩ := hall sampleCodec sampleStorage [str "data"] blockedDirectory hleads
    (fun n _ h => by
      rw [hnodes] at h
      split at h <;> cases h)
    [⟨[], .saveReport [] newYear.iso⟩] (by simpa using ⟨newYear, rfl⟩) [newYear.iso] (by
      rw [hrun]
      refine ⟨by simp, fun n => ?_⟩
      rw [hnodes, List.mem_singleton]
      constructor
      · rintro rfl
        exact ⟨newYear.iso_plain, by simp⟩
      · rintro ⟨-, hne⟩
        by_contra hno
        exact hne (if_neg hno))
  have hnone : sampleStorage.listDates blockedDirectory [newYear.iso] = some [] := by decide +kernel
  rw [hrun, hnone] at hlist
  have hnew : newYear ∈ dates := (hmem newYear).mpr ⟨_, List.mem_cons_self, rfl, rfl⟩
  have hempty : dates = [] := by simpa using (Option.some.inj hlist).symm
  rw [hempty] at hnew
  cases hnew

end LynneSocial.JsonlStorage
