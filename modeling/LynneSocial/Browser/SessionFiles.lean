import LynneSocial.Browser.Cookies
import LynneSocial.Common.Nlohmann
import LynneSocial.Lib.FileSystem

/-!
# Session files

The manager and the disk with the files of its sessions. `write_file` does not
look at its stream: a file that does not open is left as it is, and one the disk
has no room for is cut off. `save_session` reports success in any case, and
platforms whose names lead to one path share a file.
-/
namespace LynneSocial.Browser

open FileSystem

/-- `dir + platform + "_state.json"`. -/
def sessionPath (sessionsDir platform : Str) : Str :=
  let dir := if sessionsDir ≠ [] ∧ sessionsDir.getLast? ≠ some slash then sessionsDir ++ [slash]
    else sessionsDir
  dir ++ platform ++ str "_state.json"

/-- `session["cookies"] = ...` on an empty value. -/
def sessionOfCookies (cookies : Parsed) : Parsed := .object [(⟨str "cookies", rfl⟩, cookies)]

/-- The system reads a path up to its first zero byte. -/
def cPath (path : Str) : Str := path.takeWhile (· ≠ 0)

/-- `write_file`, when the disk takes this many bytes. -/
def writeFile (fs : Disk) (path data : Str) (room : ℕ) : Disk :=
  match fs.openTruncate (cPath path) with
  | (fs, out) => fs.write out (data.take room)

/-- `read_file`; it throws for a directory. -/
def readFile (readable : Loc → Bool) (fs : Disk) (path : Str) : Option Str :=
  match fs.resolve (cPath path) with
  | none => some []
  | some l =>
    if readable l then
      match fs.nodeAt l with
      | none => some []
      | some .dir => none
      | some (.file content) => some content
    else some []

structure SessionFiles where
  manager : State
  disk : Disk

def Label.isRestore : Label → Bool
  | .restoreSession _ _ => true
  | _ => false

inductive FileLabel where
  /-- A step of the manager; a file it writes can take this many bytes. -/
  | manager (l : Label) (room : ℕ)
  | restoreSession (platform : Str)

namespace SessionFiles

variable (c : JsonCodec) (sessionsDir : Str) (readable : Loc → Bool)

/-- The session in a text, if it parses. -/
def parseSession (content : Str) : Option Parsed :=
  if content = [] then none
  else (c.parse content).bind fun j =>
    if h : j.dumpable = true ∧ j.wellFormed = true ∧ j.finite = true then some ⟨j, h.1, h.2.1, h.2.2⟩
    else none

def saveFile (fs : Disk) (platform : Str) (cookies : Parsed) (room : ℕ) : Disk :=
  match c.dumpIndented (sessionOfCookies cookies).json with
  | some text => writeFile fs (sessionPath sessionsDir platform) text room
  | none => fs

/-- What `read_file` throws goes to the application. -/
def step (s : SessionFiles) : FileLabel → Option SessionFiles
  | .manager l room =>
    if l.isRestore then none
    else (s.manager.step l).map fun m =>
      ⟨m, match s.manager.saving l with
        | some (platform, cookies) => saveFile c sessionsDir s.disk platform cookies room
        | none => s.disk⟩
  | .restoreSession platform =>
    match readFile readable s.disk (sessionPath sessionsDir platform) with
    | some content =>
      (s.manager.step (.restoreSession platform (parseSession c content))).map (⟨·, s.disk⟩)
    | none => if s.manager.userTurn then some s else none

/-- The cookies whose saving for the platform was reported last. -/
def lastSaved (s : SessionFiles) (platform : Str) : Option Parsed := s.manager.saves.lookup platform

/-- `restore_session` finds these cookies in the file. -/
def Finds (fs : Disk) (platform : Str) (cookies : Parsed) : Prop :=
  ∃ content, readFile readable fs (sessionPath sessionsDir platform) = some content ∧
    (parseSession c content).bind (·.find? (str "cookies")) = some cookies

/-- What was saved is what `restore_session` would set now. -/
def RoundTrips (s : SessionFiles) : Prop :=
  ∀ platform cookies, s.lastSaved platform = some cookies →
    ∃ content, readFile readable s.disk (sessionPath sessionsDir platform) = some content ∧
      Restores platform (parseSession c content) cookies

/-- Where the session file of a platform opens. -/
def opensAt (fs : Disk) (platform : Str) : Option Loc :=
  (fs.openTruncate (cPath (sessionPath sessionsDir platform))).2

/-- The file opens, can be read, takes the whole text, and is not the file of another platform that
saved other cookies; or it does not open and has these cookies in it already. -/
def Conforms (s : SessionFiles) : FileLabel → Prop
  | .manager l room => ∀ platform cookies, s.manager.saving l = some (platform, cookies) →
    match opensAt sessionsDir s.disk platform with
    | some loc => readable loc = true ∧
        (∀ text, c.dumpIndented (sessionOfCookies cookies).json = some text → text.length ≤ room) ∧
        ∀ other found, other ≠ platform → s.lastSaved other = some found →
          s.disk.resolve (cPath (sessionPath sessionsDir other)) = some loc → found = cookies
    | none => Finds c sessionsDir readable s.disk platform cookies
  | .restoreSession _ => True

variable {c sessionsDir readable} {s t : SessionFiles}

theorem writeFile_cases (fs : Disk) (path data : Str) (room : ℕ) :
    ((fs.openTruncate (cPath path)).2 = none ∧ writeFile fs path data room = fs) ∨
    ∃ l, (fs.openTruncate (cPath path)).2 = some l ∧ fs.resolve (cPath path) = some l ∧
      fs.nodeAt l ≠ some .dir ∧ writeFile fs path data room = fs.set l (.file (data.take room)) := by
  unfold writeFile Disk.openTruncate
  rcases Disk.openWith_cases (fun _ => []) rfl fs (cPath path) with h | ⟨l, hl, hdir, h⟩
  · rw [h]
    exact .inl ⟨rfl, rfl⟩
  · rw [h]
    refine .inr ⟨l, rfl, hl, ?_, Disk.write_set fs l [] _⟩
    rwa [Disk.status, hl] at hdir

theorem readFile_set {fs : Disk} {l : Loc} (hl : fs.nodeAt l ≠ some .dir) (x path : Str) :
    readFile readable (fs.set l (.file x)) path =
      if fs.resolve (cPath path) = some l then some (if readable l = true then x else [])
      else readFile readable fs path := by
  unfold readFile
  rw [Disk.resolve_set_file hl]
  cases hk : fs.resolve (cPath path) with
  | none => simp
  | some k =>
      by_cases hkl : k = l
      · subst hkl
        simp only [Disk.nodeAt_set_file hl, if_true]
        split <;> rfl
      · simp [Disk.nodeAt_set_file hl, hkl]

theorem find_sessionOfCookies (cookies : Parsed) :
    (sessionOfCookies cookies).find? (str "cookies") = some cookies := by
  have hfind : (sessionOfCookies cookies).json.find? (str "cookies") = some cookies.json := by
    simp [sessionOfCookies, Parsed.object, Json.object, Json.emplace, Json.find?]
  unfold Parsed.find?
  split
  · rename_i x hx
    rw [hfind] at hx
    exact congrArg some (Parsed.eq_of_json (Option.some.inj hx).symm)
  · rename_i hx
    rw [hfind] at hx
    cases hx

theorem parse_session (hc : c.Exact) {cookies : Parsed} {text : Str}
    (ht : c.dumpIndented (sessionOfCookies cookies).json = some text) :
    (parseSession c text).bind (·.find? (str "cookies")) = some cookies := by
  have hparse := hc.parses _ _ (sessionOfCookies cookies).wellFormed (sessionOfCookies cookies).finite ht
  have hne : text ≠ [] := by
    rintro rfl
    rw [hc.parse_nil] at hparse
    cases hparse
  have hsession : parseSession c text = some (sessionOfCookies cookies) := by
    rw [parseSession, if_neg hne, hparse, Option.bind_some,
      dif_pos ⟨(sessionOfCookies cookies).valid, (sessionOfCookies cookies).wellFormed,
        (sessionOfCookies cookies).finite⟩]
  rw [hsession, Option.bind_some, find_sessionOfCookies]

theorem parse_short (hc : c.Exact) {cookies : Parsed} {text : Str} {n : ℕ}
    (ht : c.dumpIndented (sessionOfCookies cookies).json = some text) (hn : n < text.length) :
    parseSession c (text.take n) = none := by
  unfold parseSession
  split
  · rfl
  · rw [hc.whole _ text (sessionOfCookies cookies).wellFormed ht n hn, Option.bind_none]

/-- Nothing the library parses fails the check of `parseSession`. -/
theorem parseSession_library {grisu : JsonText.Grisu} {content : Str} {j : Json} (hne : content ≠ [])
    (h : JsonText.parse content = some j) :
    ∃ x : Parsed, parseSession (JsonText.codec grisu) content = some x ∧ x.json = j := by
  obtain ⟨hwell, hfinite, hdump⟩ := JsonText.parse_sound h
  have hparse : (JsonText.codec grisu).parse content = some j := h
  refine ⟨⟨j, hdump, hwell, hfinite⟩, ?_, rfl⟩
  rw [parseSession, if_neg hne, hparse, Option.bind_some, dif_pos ⟨hdump, hwell, hfinite⟩]

/-- Each platform's file has what was saved for it last. -/
def Kept (c : JsonCodec) (sessionsDir : Str) (readable : Loc → Bool) (fs : Disk)
    (saves : List (Str × Parsed)) : Prop :=
  ∀ platform cookies, saves.lookup platform = some cookies →
    Finds c sessionsDir readable fs platform cookies

theorem roundTrips_iff : RoundTrips c sessionsDir readable s ↔
    Kept c sessionsDir readable s.disk s.manager.saves := by
  simp only [RoundTrips, Kept, lastSaved, Finds, restores_iff]

/-- The file that opened is left with this text. -/
theorem finds_set (hc : c.Exact) {fs : Disk} {loc : Loc} (hloc : fs.nodeAt loc ≠ some .dir)
    {cookies : Parsed} {text : Str} (ht : c.dumpIndented (sessionOfCookies cookies).json = some text)
    {room : ℕ} {platform : Str} (hp : fs.resolve (cPath (sessionPath sessionsDir platform)) = some loc)
    (found : Parsed) :
    Finds c sessionsDir readable (fs.set loc (.file (text.take room))) platform found ↔
      readable loc = true ∧ text.length ≤ room ∧ found = cookies := by
  rw [Finds, readFile_set hloc, if_pos hp]
  cases hr : readable loc with
  | false => simp [parseSession]
  | true =>
      simp only [if_true, Option.some.injEq, exists_eq_left']
      by_cases hroom : text.length ≤ room
      · rw [List.take_of_length_le hroom, parse_session hc ht]
        simp [hroom, eq_comm]
      · rw [parse_short hc ht (by omega)]
        simp [hroom]

theorem kept_save_iff (hc : c.Exact) {fs : Disk} {saves : List (Str × Parsed)}
    (h : Kept c sessionsDir readable fs saves) (platform : Str) (cookies : Parsed) (room : ℕ) :
    Kept c sessionsDir readable (saveFile c sessionsDir fs platform cookies room)
        ((platform, cookies) :: saves) ↔
      match opensAt sessionsDir fs platform with
      | some loc => readable loc = true ∧
          (∀ text, c.dumpIndented (sessionOfCookies cookies).json = some text → text.length ≤ room) ∧
          ∀ other found, other ≠ platform → saves.lookup other = some found →
            fs.resolve (cPath (sessionPath sessionsDir other)) = some loc → found = cookies
      | none => Finds c sessionsDir readable fs platform cookies := by
  obtain ⟨text, ht⟩ := Option.isSome_iff_exists.mp (hc.dumps _ (sessionOfCookies cookies).valid)
  have hlookup : ∀ other found, ((platform, cookies) :: saves).lookup other = some found ↔
      other = platform ∧ found = cookies ∨ other ≠ platform ∧ saves.lookup other = some found := by
    intro other found
    by_cases hother : other = platform
    · subst hother
      simp [eq_comm]
    · have hb : (other == platform) = false := by simpa using hother
      simp [List.lookup_cons, hb, hother]
  simp only [saveFile, ht, Kept, hlookup, Option.some.injEq, forall_eq']
  rcases writeFile_cases fs (sessionPath sessionsDir platform) text room with
    ⟨hopen, hw⟩ | ⟨loc, hopen, hloc, hdir, hw⟩
  · rw [hw, opensAt, hopen]
    constructor
    · exact fun hk => hk platform cookies (.inl ⟨rfl, rfl⟩)
    · rintro hf other found (⟨rfl, rfl⟩ | ⟨-, hl⟩)
      · exact hf
      · exact h other found hl
  · rw [hw, opensAt, hopen]
    constructor
    · intro hk
      obtain ⟨hr, hroom, -⟩ := (finds_set hc hdir ht hloc _).mp (hk platform cookies (.inl ⟨rfl, rfl⟩))
      refine ⟨hr, hroom, fun other found hne hl hsame => ?_⟩
      exact ((finds_set hc hdir ht hsame _).mp (hk other found (.inr ⟨hne, hl⟩))).2.2
    · rintro ⟨hr, hroom, hothers⟩ other found hcases
      by_cases hsame : fs.resolve (cPath (sessionPath sessionsDir other)) = some loc
      · refine (finds_set hc hdir ht hsame _).mpr ⟨hr, hroom, ?_⟩
        rcases hcases with ⟨-, rfl⟩ | ⟨hne, hl⟩
        · rfl
        · exact hothers other found hne hl hsame
      · rcases hcases with ⟨rfl, -⟩ | ⟨hne, hl⟩
        · exact absurd hloc hsame
        · rw [Finds, readFile_set hdir, if_neg hsame]
          exact h other found hl

/-- A step of the whole saves, or touches neither the files nor what was saved. -/
theorem step_cases {l : FileLabel} (ht : step c sessionsDir readable s l = some t)
    (hsh : Shape s.manager.stack) :
    Shape t.manager.stack ∧
    ((t.disk = s.disk ∧ t.manager.saves = s.manager.saves ∧ Conforms c sessionsDir readable s l) ∨
    ∃ l' room platform cookies, l = .manager l' room ∧ s.manager.saving l' = some (platform, cookies) ∧
      t.manager.saves = (platform, cookies) :: s.manager.saves ∧
      t.disk = saveFile c sessionsDir s.disk platform cookies room) := by
  cases l with
  | manager l room =>
      simp only [step, Option.ite_none_left_eq_some] at ht
      obtain ⟨m, hm, rfl⟩ := Option.map_eq_some_iff.mp ht.2
      refine ⟨State.step_shape hsh hm, ?_⟩
      have hsaves := State.step_saves hm hsh
      cases hs : s.manager.saving l with
      | none =>
          rw [hs] at hsaves
          exact .inl ⟨rfl, hsaves, by simp [Conforms, hs]⟩
      | some save =>
          rw [hs] at hsaves
          exact .inr ⟨l, room, save.1, save.2, rfl, hs, hsaves, rfl⟩
  | restoreSession platform =>
      simp only [step] at ht
      split at ht
      · obtain ⟨m, hm, rfl⟩ := Option.map_eq_some_iff.mp ht
        exact ⟨State.step_shape hsh hm, .inl ⟨rfl, State.request_saves rfl hm, trivial⟩⟩
      · split at ht <;> cases ht
        exact ⟨hsh, .inl ⟨rfl, rfl, trivial⟩⟩

/-- What was saved can be restored in every state of a run, if and only if every file that is written
opens, takes the whole text, can be read, and is not the file of another platform with other cookies
(or does not open and has these cookies in it). -/
theorem session_files_round_trip_iff (hc : c.Exact) {fs : Disk} {ls : List FileLabel}
    (hr : Transition.run (step c sessionsDir readable) ⟨init, fs⟩ ls = some s) :
    (∀ ks u, ks <+: ls → Transition.run (step c sessionsDir readable) ⟨init, fs⟩ ks = some u →
      u.RoundTrips c sessionsDir readable) ↔
    Transition.Along (step c sessionsDir readable) (Conforms c sessionsDir readable) ⟨init, fs⟩ ls := by
  have hstep : ∀ (u v : SessionFiles) l, Shape u.manager.stack →
      Kept c sessionsDir readable u.disk u.manager.saves →
      step c sessionsDir readable u l = some v →
      Shape v.manager.stack ∧
        (Kept c sessionsDir readable v.disk v.manager.saves ↔ Conforms c sessionsDir readable u l) := by
    intro u v l hsh hk hv
    obtain ⟨hsh', ⟨hdisk, hsaves, hcon⟩ | ⟨l', room, platform, cookies, rfl, hs, hsaves, hdisk⟩⟩ :=
      step_cases hv hsh
    · rw [hdisk, hsaves]
      exact ⟨hsh', iff_of_true hk hcon⟩
    · rw [hdisk, hsaves, kept_save_iff hc hk]
      simp only [Conforms, hs, Option.some.injEq, Prod.mk.injEq]
      refine ⟨hsh', fun h p x hpx => ?_, fun h => h platform cookies ⟨rfl, rfl⟩⟩
      obtain ⟨rfl, rfl⟩ := hpx
      exact h
  exact Transition.along_iff_prefixes
    (I := fun u => Shape u.manager.stack ∧ Kept c sessionsDir readable u.disk u.manager.saves)
    (P := fun u => u.RoundTrips c sessionsDir readable)
    (fun u l v hu hcon hv => ⟨(hstep u v l hu.1 hu.2 hv).1, (hstep u v l hu.1 hu.2 hv).2.mpr hcon⟩)
    (fun u hu => roundTrips_iff.mpr hu.2)
    (fun u l v hu hcon hv hP => hcon ((hstep u v l hu.1 hu.2 hv).2.mp (roundTrips_iff.mp hP)))
    ⟨by trivial, by simp [Kept, State.saves, init]⟩ hr

variable (c sessionsDir readable) in
/-- A run of the manager that saves nothing, as a run of the whole. -/
theorem run_unsaved {ls : List Label} {m m' : State} (hr : Transition.run State.step m ls = some m')
    (hal : Transition.Along State.step (fun m l => (m.saving l).isNone = true ∧ l.isRestore = false) m ls)
    (fs : Disk) :
    Transition.run (step c sessionsDir readable) ⟨m, fs⟩ (ls.map (FileLabel.manager · 0)) = some ⟨m', fs⟩ ∧
    Transition.Along (step c sessionsDir readable) (Conforms c sessionsDir readable) ⟨m, fs⟩
      (ls.map (FileLabel.manager · 0)) := by
  induction ls generalizing m with
  | nil =>
      obtain rfl := Option.some.inj hr
      exact ⟨rfl, trivial⟩
  | cons l ls ih =>
      obtain ⟨u, hu, hr⟩ := Transition.run_cons.mp hr
      obtain ⟨⟨hs, hl⟩, hal⟩ := hal
      have hs := Option.isNone_iff_eq_none.mp hs
      have hstep : step c sessionsDir readable ⟨m, fs⟩ (.manager l 0) = some ⟨u, fs⟩ := by
        simp [step, hl, hu, hs]
      obtain ⟨hrun, hcon⟩ := ih hr (hal u hu)
      refine ⟨Transition.run_cons.mpr ⟨_, hstep, hrun⟩, (Transition.along_cons hstep).mpr ⟨?_, hcon⟩⟩
      simp [Conforms, hs]

end SessionFiles

instance : DecidableEq Parsed := fun x y =>
  decidable_of_iff (x.json = y.json) ⟨Parsed.eq_of_json, congrArg Parsed.json⟩

def sampleCookies : Parsed := ⟨.arr [], rfl, rfl, rfl⟩

/-- The text `dump(2)` writes for a session without cookies. -/
def sampleText : Str := str "\x7b\n  \"cookies\": []\n\x7d"

/-- The library itself. -/
def sampleSessions : JsonCodec := JsonText.codec JsonText.exactDigits

theorem sampleSessions_exact : sampleSessions.Exact := JsonText.exactDigits_readsBack.exact

theorem dump_sample : sampleSessions.dumpIndented (sessionOfCookies sampleCookies).json = some sampleText := by
  decide +kernel

/-- Up to the answer to `Storage.getCookies`. -/
def beforeSave : List Label :=
  connect ++ [.getContext (str "xhs")] ++ answerChain 1 ++ [.saveSession (str "xhs"),
    .received (some (okMessage 5 (sessionOfCookies sampleCookies))), .wake, .swap]

theorem beforeSave_run : ∃ m m', Transition.run State.step init beforeSave = some m ∧
    Transition.Along State.step (fun m l => (m.saving l).isNone = true ∧ l.isRestore = false) init
      beforeSave ∧
    m.saving .next = some (str "xhs", sampleCookies) ∧ m.step .next = some m' ∧ m'.userTurn = true ∧
    m'.saves = [(str "xhs", sampleCookies)] ∧ m'.calls = 2 := by
  have h : (Transition.run State.step init beforeSave).any (fun m =>
      decide (m.saving .next = some (str "xhs", sampleCookies)) && (m.step .next).any (fun m' =>
        decide (m'.userTurn = true ∧ m'.saves = [(str "xhs", sampleCookies)] ∧ m'.calls = 2))) = true := by
    decide +kernel
  have hal : Transition.Along State.step (fun m l => (m.saving l).isNone = true ∧ l.isRestore = false) init
      beforeSave := by
    decide +kernel
  obtain ⟨m, hm, h⟩ := Option.any_eq_true _ _ |>.mp h
  simp only [Bool.and_eq_true, decide_eq_true_eq] at h
  obtain ⟨m', hm', h'⟩ := Option.any_eq_true _ _ |>.mp h.2
  simp only [decide_eq_true_eq] at h'
  exact ⟨m, m', hm, hal, h.1, hm', h'⟩

/-- The answer is handled when the disk takes 100 bytes. -/
def saveRun : List FileLabel := beforeSave.map (FileLabel.manager · 0) ++ [.manager .next 100]

theorem saveRun_steps (fs : Disk) : ∃ m m',
    Transition.run (SessionFiles.step sampleSessions (str "sessions") fun _ => true) ⟨init, fs⟩
      (beforeSave.map (FileLabel.manager · 0)) = some ⟨m, fs⟩ ∧
    Transition.Along (SessionFiles.step sampleSessions (str "sessions") fun _ => true)
      (SessionFiles.Conforms sampleSessions (str "sessions") fun _ => true) ⟨init, fs⟩
      (beforeSave.map (FileLabel.manager · 0)) ∧
    m.saves = [] ∧ m.saving .next = some (str "xhs", sampleCookies) ∧
    SessionFiles.step sampleSessions (str "sessions") (fun _ => true) ⟨m, fs⟩ (.manager .next 100) =
      some ⟨m', SessionFiles.saveFile sampleSessions (str "sessions") fs (str "xhs") sampleCookies 100⟩ ∧
    m'.saves = [(str "xhs", sampleCookies)] ∧ m'.userTurn = true ∧ m'.calls = 2 := by
  obtain ⟨m, m', hm, hal, hs, hm', hturn, hsaves, hcalls⟩ := beforeSave_run
  obtain ⟨hrun, hcon⟩ :=
    SessionFiles.run_unsaved sampleSessions (str "sessions") (fun _ => true) hm hal fs
  have hnone : m.saves = [] := by
    have := State.step_saves hm' (State.run_shape hm)
    rw [hs, hsaves] at this
    exact (List.cons.inj this).2.symm
  refine ⟨m, m', hrun, hcon, hnone, hs, ?_, hsaves, hturn, hcalls⟩
  simp [SessionFiles.step, Label.isRestore, hm', hs]

def sessionsDisk : Disk := { nodes := Function.update (fun _ => none) [str "sessions"] (some .dir) }

theorem session_files_round_trip_sample : ∃ s,
    Transition.run (SessionFiles.step sampleSessions (str "sessions") fun _ => true)
      ⟨init, sessionsDisk⟩ saveRun = some s ∧
    s.lastSaved (str "xhs") = some sampleCookies ∧
    s.RoundTrips sampleSessions (str "sessions") fun _ => true := by
  obtain ⟨m, m', hrun, hcon, hnone, hs, hstep, hsaves, -, -⟩ := saveRun_steps sessionsDisk
  have hall := Transition.run_append.mpr ⟨_, hrun, Transition.run_cons.mpr ⟨_, hstep, Transition.run_nil _⟩⟩
  have hconforms : SessionFiles.Conforms sampleSessions (str "sessions") (fun _ => true)
      ⟨m, sessionsDisk⟩ (.manager .next 100) := by
    intro platform cookies h
    obtain ⟨rfl, rfl⟩ := Prod.mk.inj (Option.some.inj (hs.symm.trans h))
    have hopen : SessionFiles.opensAt (str "sessions") sessionsDisk (str "xhs") =
        some [str "sessions", str "xhs_state.json"] := by
      decide +kernel
    simp only [hopen]
    refine ⟨trivial, fun text ht => ?_, fun other found _ hl => ?_⟩
    · obtain rfl := Option.some.inj (dump_sample.symm.trans ht)
      decide +kernel
    · simp [SessionFiles.lastSaved, hnone] at hl
  have hiff := SessionFiles.session_files_round_trip_iff sampleSessions_exact hall
  refine ⟨_, hall, ?_, hiff.mpr ?_ saveRun _ (List.prefix_refl _) hall⟩
  · simp only [SessionFiles.lastSaved, hsaves]
    decide +kernel
  · exact (Transition.along_append hrun).mpr ⟨hcon, (Transition.along_cons hstep).mpr ⟨hconforms, trivial⟩⟩

/-- The directory of the sessions is missing: success is reported and nothing is there to restore. -/
theorem lost_session : ∃ s t,
    Transition.run (SessionFiles.step sampleSessions (str "sessions") fun _ => true) ⟨init, {}⟩ saveRun =
      some s ∧
    s.lastSaved (str "xhs") = some sampleCookies ∧
    ¬ (s.RoundTrips sampleSessions (str "sessions") fun _ => true) ∧
    SessionFiles.step sampleSessions (str "sessions") (fun _ => true) s (.restoreSession (str "xhs")) =
      some t ∧
    .answered (.request 2) (.restored false) ∈ t.manager.history := by
  obtain ⟨m, m', hrun, -, -, -, hstep, hsaves, hturn, hcalls⟩ := saveRun_steps {}
  have hall := Transition.run_append.mpr ⟨_, hrun, Transition.run_cons.mpr ⟨_, hstep, Transition.run_nil _⟩⟩
  have hdisk : SessionFiles.saveFile sampleSessions (str "sessions") {} (str "xhs") sampleCookies 100 = {} := by
    unfold SessionFiles.saveFile
    split
    · rename_i text _
      rcases SessionFiles.writeFile_cases {} (sessionPath (str "sessions") (str "xhs")) text 100 with
        h | ⟨loc, h, -⟩
      · exact h.2
      · have hclosed : (({} : Disk).openTruncate (cPath (sessionPath (str "sessions") (str "xhs")))).2 = none := by
          decide +kernel
        rw [hclosed] at h
        cases h
    · rfl
  have hread : readFile (fun _ => true) {} (sessionPath (str "sessions") (str "xhs")) = some [] := by
    decide +kernel
  have hlast : SessionFiles.lastSaved ⟨m', {}⟩ (str "xhs") = some sampleCookies := by
    simp only [SessionFiles.lastSaved, hsaves]
    decide +kernel
  have hparse : SessionFiles.parseSession sampleSessions [] = none := if_pos rfl
  rw [hdisk] at hall
  refine ⟨_, ⟨(m'.restoreSession (str "xhs") none).1, {}⟩, hall, hlast, fun h => ?_, ?_, ?_⟩
  · obtain ⟨content, hcontent, hrestores⟩ := h _ _ hlast
    rw [hread] at hcontent
    obtain rfl := Option.some.inj hcontent
    have := restores_iff.mp hrestores
    rw [hparse] at this
    cases this
  · simp only [SessionFiles.step, hread, hparse, State.step, hturn, if_true, Option.map_some]
  · simp [State.restoreSession, State.answer, hcalls]

end LynneSocial.Browser
