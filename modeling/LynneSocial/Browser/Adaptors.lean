import LynneSocial.Browser.Base64
import LynneSocial.Browser.SessionFiles
import LynneSocial.Browser.WaitForSelector

/-!
# Adaptors

What the operations of a context put between the response to their command and
the functions of the application. To the manager an adaptor and the function it
calls are one callback; an adaptor that throws is a callback that throws, so the
entry of the command stays. `screenshot` is the one that has an effect: it
writes a file.
-/
namespace LynneSocial.Browser

open FileSystem

inductive Operation where
  | navigate
  | evaluate
  | addInitScript
  | currentUrl
  | screenshot (filepath : Str)
  | sendCommand
  | click
  | type
  | scroll
  | pressKey
  | hover
  | exists

/-- A function of the application, with its argument. -/
inductive Callback where
  | done
  | result (x : Json)
  | url (text : Str)
  | found (b : Bool)
  | error (text : Str)
deriving DecidableEq

namespace Operation

/-- The lambda of `click`, `type` and `hover`. -/
def element (name : Str) (res : Json) : Option Callback :=
  (State.polled res).map fun b => if b then .done else .error (name ++ str ": element not found")

/-- The lambda of `screenshot`, when the disk takes this many bytes. -/
def write (fs : Disk) (room : ℕ) (filepath b64 : Str) : Disk × Callback :=
  match fs.openTruncate (cPath filepath) with
  | (fs, none) => (fs, .error (str "screenshot: cannot write file"))
  | (fs, some out) => (fs.write (some out) ((base64Decode b64).take room), .done)

/-- What is done with the result of the command; `none` throws. -/
def onOk (fs : Disk) (room : ℕ) (result : Json) : Operation → Option (Disk × Callback)
  | navigate | addInitScript | pressKey => some (fs, .done)
  | sendCommand => some (fs, .result result)
  | evaluate => (result.find? (str "result")).map fun res => (fs, .result res)
  | scroll => (result.find? (str "result")).map fun _ => (fs, .done)
  | currentUrl => ((result.find? (str "result")).bind (·.strAt (str "value"))).map fun text => (fs, .url text)
  | screenshot filepath => (result.strAt (str "data")).map (write fs room filepath)
  | click => ((result.find? (str "result")).bind (element (str "click"))).map (fs, ·)
  | type => ((result.find? (str "result")).bind (element (str "type"))).map (fs, ·)
  | hover => ((result.find? (str "result")).bind (element (str "hover"))).map (fs, ·)
  | .exists => ((result.find? (str "result")).bind State.polled).map fun b => (fs, .found b)

/-- What Chrome has to send for an operation. -/
def Expects (result : Json) : Operation → Prop
  | navigate | addInitScript | pressKey | sendCommand => True
  | evaluate | scroll => result.contains (str "result") = true
  | currentUrl => ∃ res text, result.find? (str "result") = some res ∧
      res.find? (str "value") = some (.str text)
  | screenshot _ => ∃ text, result.find? (str "data") = some (.str text)
  | click | type | hover | .exists => ∃ res, result.find? (str "result") = some res ∧
      ∀ x, res.find? (str "value") = some x → x = .null ∨ ∃ b, x = .bool b

theorem strAt_isSome_iff {key : Str} {j : Json} :
    (j.strAt key).isSome = true ↔ ∃ text, j.find? key = some (.str text) := by
  unfold Json.strAt
  cases j.find? key with
  | none => simp
  | some x => cases x <;> simp [Json.getStr]

theorem polled_isSome_iff {res : Json} : (State.polled res).isSome = true ↔
    ∀ x, res.find? (str "value") = some x → x = .null ∨ ∃ b, x = .bool b := by
  unfold State.polled
  cases res.find? (str "value") with
  | none => simp
  | some x => cases x <;> simp

/-- The adaptors that throw: something the operation reads is missing or of another type. -/
theorem onOk_isSome_iff {fs : Disk} {room : ℕ} {result : Json} {op : Operation} :
    (op.onOk fs room result).isSome = true ↔ op.Expects result := by
  cases op with
  | navigate | addInitScript | pressKey | sendCommand => simp [onOk, Expects]
  | evaluate | scroll => simp [onOk, Expects, Json.contains]
  | screenshot filepath => rw [onOk, Option.isSome_map, strAt_isSome_iff, Expects]
  | currentUrl =>
      rw [onOk, Option.isSome_map, Expects]
      cases result.find? (str "result") with
      | none => simp
      | some res => simp [strAt_isSome_iff]
  | click | type | hover | «exists» =>
      rw [onOk, Option.isSome_map, Expects]
      cases result.find? (str "result") with
      | none => simp
      | some res => simp [element, polled_isSome_iff]

/-- How the callback of the command ends, if the function of the application returns. -/
def ending (fs : Disk) (room : ℕ) (result : Json) (op : Operation) : Label :=
  if (op.onOk fs room result).isSome then .ret else .throw

/-- The response to the command of an operation leaves its entry in `pending_` exactly when the adaptor
throws. -/
theorem entry_kept_iff {s : State} {msg result : Parsed} {id : ℤ} {call : ℕ} (hid : msg.id? = some id)
    (hentry : s.pending.lookup id = some (.command call)) (hreply : msg.reply = some (.ok result))
    (op : Operation) (fs : Disk) (room : ℕ) :
    ∃ t, (s.onResponse msg).step (op.ending fs room result.json) = some t ∧
      (t.pending.lookup id = some (.command call) ↔ ¬ op.Expects result.json) := by
  have hcalled : s.onResponse msg = (({ s with
      stack := .eraseIt id :: s.stack
      history := .invoked id (.command call) (.ok result) :: s.history } : State).answer
        (.operation call) (.result result)).1 := by
    simp only [State.onResponse, hid, hentry, hreply]
    rfl
  rw [hcalled, ← @onOk_isSome_iff fs room result.json op, ending]
  cases (op.onOk fs room result.json).isSome with
  | true => exact ⟨_, rfl, by simp [State.answer, State.resume]⟩
  | false => exact ⟨_, rfl, by simp [State.answer, State.unwind, hentry]⟩

/-- Only `screenshot` touches the disk. -/
theorem onOk_disk {fs gs : Disk} {room : ℕ} {result : Json} {op : Operation} {callback : Callback}
    (h : op.onOk fs room result = some (gs, callback)) : gs = fs ∨ ∃ filepath, op = .screenshot filepath := by
  cases op with
  | screenshot filepath => exact .inr ⟨filepath, rfl⟩
  | _ =>
      left
      simp only [onOk, Option.map_eq_some_iff, Option.some.injEq, Prod.mk.injEq] at h
      grind

/-- The operations that look for an element read what `wait_for_selector` polls, and agree with it on every
response. -/
theorem onOk_polled {fs : Disk} {room : ℕ} {result : Parsed} :
    (∀ op ∈ [click, type, hover], op.onOk fs room result.json = some (fs, .done) ↔
      (Reply.ok result).polled = some true) ∧
    Operation.exists.onOk fs room result.json = (Reply.ok result).polled.map fun b => (fs, .found b) := by
  have helement : ∀ name : Str, (((result.json.find? (str "result")).bind (element name)).map (fs, ·) =
      some (fs, .done)) ↔ (Reply.ok result).polled = some true := by
    intro name
    rw [Reply.polled]
    cases result.json.find? (str "result") with
    | none => simp
    | some res =>
        rw [Option.bind_some, Option.bind_some, element]
        cases State.polled res with
        | none => simp
        | some b => cases b <;> simp
  refine ⟨fun op hop => ?_, rfl⟩
  simp only [List.mem_cons, List.not_mem_nil, or_false] at hop
  rcases hop with rfl | rfl | rfl <;> exact helement _

/-- A screenshot ends in a file with exactly the bytes of the image, if the file opens and the disk has room
for them, however Chrome breaks the lines of its text. -/
theorem screenshot_image {fs : Disk} {room : ℕ} {result : Json} {filepath b64 image : Str} {padded : Bool}
    {loc : Loc} (hdata : result.strAt (str "data") = some b64)
    (himage : b64.filter (fun c => !isspace c) = Base64.encode padded image)
    (hopen : (fs.openTruncate (cPath filepath)).2 = some loc) (hroom : image.length ≤ room) :
    ∃ gs, (Operation.screenshot filepath).onOk fs room result = some (gs, .done) ∧
      readFile (fun _ => true) gs filepath = some image := by
  have hdecode : base64Decode b64 = image := by
    rw [base64Decode_eq, himage, symbols_encode, emit_sextets]
  have hwrite : write fs room filepath b64 = (writeFile fs filepath image room, .done) := by
    unfold write writeFile
    cases h : fs.openTruncate (cPath filepath) with
    | mk gs out =>
        rw [h] at hopen
        obtain rfl : out = some loc := hopen
        simp only [hdecode]
  refine ⟨writeFile fs filepath image room, by rw [onOk, hdata, Option.map_some, hwrite], ?_⟩
  rcases SessionFiles.writeFile_cases fs filepath image room with ⟨hnone, -⟩ | ⟨l, -, hl, hdir, hw⟩
  · rw [hopen] at hnone
    cases hnone
  · rw [hw, SessionFiles.readFile_set hdir, if_pos hl, if_pos rfl, List.take_of_length_le hroom]

/-- A file that does not open is reported, and the disk stays as it is. -/
theorem screenshot_refused {fs : Disk} {room : ℕ} {result : Json} {filepath b64 : Str}
    (hdata : result.strAt (str "data") = some b64) (hopen : (fs.openTruncate (cPath filepath)).2 = none) :
    (Operation.screenshot filepath).onOk fs room result =
      some (fs, .error (str "screenshot: cannot write file")) := by
  have hdisk : (fs.openTruncate (cPath filepath)).1 = fs := by
    unfold Disk.openTruncate at hopen ⊢
    rcases Disk.openWith_cases (fun _ => []) rfl fs (cPath filepath) with h | ⟨l, -, -, h⟩
    · rw [h]
    · rw [h] at hopen
      cases hopen
  rw [onOk, hdata, Option.map_some, write]
  cases h : fs.openTruncate (cPath filepath) with
  | mk gs out =>
      rw [h] at hopen hdisk
      obtain rfl : out = none := hopen
      obtain rfl : gs = fs := hdisk
      rfl

end Operation

end LynneSocial.Browser
