import LynneSocial.Browser.BrowserConfig
import LynneSocial.Common.Models
import LynneSocial.Lib.InPlace
import Mathlib.Data.Fintype.EquivFin

/-!
# Config

The program's configuration and its decoders. The three sections are overwritten
as a whole, so that their decoders are functions of the value. The others write
into an object that is there already: a member with a default is overwritten, but
a map is assigned to, a vector grows, and a section stays as it is when the value
has none. Maps are compared here, so they are finite maps and not lists.
-/
namespace LynneSocial

namespace Config

structure ServerConfig where
  port : ℤ := 7890
  autoOpenBrowser : Bool := true

def ServerConfig.fromJson (j : Json) : Option ServerConfig := do
  let port ← j.valueInt (str "port") 7890
  let autoOpenBrowser ← j.valueBool (str "auto_open_browser") true
  return { port, autoOpenBrowser }

structure LLMConfig where
  provider : Str := str "deepseek"
  apiKey : Str := []
  baseUrl : Str := []
  model : Str := str "deepseek-chat"
  /-- In binary64. -/
  temperature : UInt64 := 0x3FE6666666666666
  maxTokens : ℤ := 4096
  timeout : ℤ := 60

def LLMConfig.fromJson (j : Json) : Option LLMConfig := do
  let provider ← j.valueStr (str "provider") (str "deepseek")
  let apiKey ← j.valueStr (str "api_key") []
  let baseUrl ← j.valueStr (str "base_url") []
  let model ← j.valueStr (str "model") (str "deepseek-chat")
  let temperature ← j.valueDouble (str "temperature") 0x3FE6666666666666
  let maxTokens ← j.valueInt (str "max_tokens") 4096
  let timeout ← j.valueInt (str "timeout") 60
  return { provider, apiKey, baseUrl, model, temperature, maxTokens, timeout }

structure PlatformConfig where
  enabled : Bool := false
  sessionFile : Str := []
  baseUrl : Str := []
  account : Finmap (fun _ : Str => Str) := ∅

def PlatformConfig.fromJson (j : Json) (c : PlatformConfig) : Option PlatformConfig := do
  let enabled ← j.valueBool (str "enabled") false
  let sessionFile ← j.valueStr (str "session_file") []
  let baseUrl ← j.valueStr (str "base_url") []
  let account ← InPlace.assign Json.getStr (j.membersAt (str "account")) c.account
  return { enabled, sessionFile, baseUrl, account }

structure TaskConfig where
  name : Str := []
  platforms : List Str := []
  intent : Str := []
  schedule : Str := str "manual"

def TaskConfig.fromJson (j : Json) (c : TaskConfig) : Option TaskConfig := do
  let name ← j.valueStr (str "name") []
  let intent ← j.valueStr (str "intent") []
  let schedule ← j.valueStr (str "schedule") (str "manual")
  let platforms ← InPlace.push Json.getStr (j.elementsAt (str "platforms")) c.platforms
  return { name, platforms, intent, schedule }

end Config

structure Config where
  server : Config.ServerConfig := {}
  llm : Config.LLMConfig := {}
  browser : Config.BrowserConfig := {}
  platforms : Finmap (fun _ : Str => Config.PlatformConfig) := ∅
  tasks : List Config.TaskConfig := []

namespace Config

def fromJson (j : Json) (c : Config) : Option Config := do
  let server ← InPlace.set ServerConfig.fromJson (j.objectAt (str "server")) c.server
  let llm ← InPlace.set LLMConfig.fromJson (j.objectAt (str "llm")) c.llm
  let browser ← InPlace.set BrowserConfig.fromJson (j.objectAt (str "browser")) c.browser
  let platforms ← InPlace.assign (fun val => PlatformConfig.fromJson val {}) (j.membersAt (str "platforms")) c.platforms
  let tasks ← InPlace.push (fun t => TaskConfig.fromJson t {}) (j.elementsAt (str "tasks")) c.tasks
  return { server, llm, browser, platforms, tasks }

/-- The accounts agree on the keys that the value does not give. -/
structure PlatformConfig.Alike (j : Json) (a b : PlatformConfig) : Prop where
  account : ∀ key ∉ (j.membersAt (str "account")).map Prod.fst, a.account.lookup key = b.account.lookup key

structure TaskConfig.Alike (a b : TaskConfig) : Prop where
  platforms : a.platforms = b.platforms

/-- The sections that the value does not give are the same, and so are the platforms under keys
that it does not give and all the tasks. -/
structure Alike (j : Json) (a b : Config) : Prop where
  server : j.objectAt (str "server") = none → a.server = b.server
  llm : j.objectAt (str "llm") = none → a.llm = b.llm
  browser : j.objectAt (str "browser") = none → a.browser = b.browser
  platforms : ∀ key ∉ (j.membersAt (str "platforms")).map Prod.fst, a.platforms.lookup key = b.platforms.lookup key
  tasks : a.tasks = b.tasks

section Decoders
variable {j : Json}

theorem PlatformConfig.fromJson_eq_some {a u : PlatformConfig} : fromJson j a = some u ↔
    (j.valueBool (str "enabled") false = some u.enabled ∧
      j.valueStr (str "session_file") [] = some u.sessionFile ∧
      j.valueStr (str "base_url") [] = some u.baseUrl) ∧
    InPlace.assign Json.getStr (j.membersAt (str "account")) a.account = some u.account := by
  simp only [fromJson, Option.bind_eq_bind, Option.bind_eq_some_iff, Option.pure_def, Option.some.injEq]
  constructor
  · rintro ⟨_, h1, _, h2, _, h3, _, h4, rfl⟩
    exact ⟨⟨h1, h2, h3⟩, h4⟩
  · rintro ⟨⟨h1, h2, h3⟩, h4⟩
    exact ⟨_, h1, _, h2, _, h3, _, h4, rfl⟩

theorem PlatformConfig.fromJson_spec (j : Json) : InPlace.Spec (fromJson j) (Alike j) True := by
  have hspec := InPlace.assign_spec Json.getStr (j.membersAt (str "account"))
  constructor
  · intro a u b hu
    obtain ⟨⟨h1, h2, h3⟩, h4⟩ := fromJson_eq_some.mp hu
    obtain ⟨account, h4⟩ := hspec.accepts b.account h4
    exact ⟨{ u with account }, fromJson_eq_some.mpr ⟨⟨h1, h2, h3⟩, h4⟩⟩
  · intro a b u hu
    obtain ⟨hread, h4⟩ := fromJson_eq_some.mp hu
    rw [fromJson_eq_some, and_iff_right hread, hspec.same_iff h4]
    exact ⟨fun h => ⟨h⟩, fun h => h.account⟩
  · intro a u hu
    obtain ⟨hread, h4⟩ := fromJson_eq_some.mp hu
    rw [fromJson_eq_some, and_iff_right hread, hspec.again_iff h4]

theorem TaskConfig.fromJson_eq_some {a u : TaskConfig} : fromJson j a = some u ↔
    (j.valueStr (str "name") [] = some u.name ∧ j.valueStr (str "intent") [] = some u.intent ∧
      j.valueStr (str "schedule") (str "manual") = some u.schedule) ∧
    InPlace.push Json.getStr (j.elementsAt (str "platforms")) a.platforms = some u.platforms := by
  simp only [fromJson, Option.bind_eq_bind, Option.bind_eq_some_iff, Option.pure_def, Option.some.injEq]
  constructor
  · rintro ⟨_, h1, _, h2, _, h3, _, h4, rfl⟩
    exact ⟨⟨h1, h2, h3⟩, h4⟩
  · rintro ⟨⟨h1, h2, h3⟩, h4⟩
    exact ⟨_, h1, _, h2, _, h3, _, h4, rfl⟩

theorem TaskConfig.fromJson_spec (j : Json) :
    InPlace.Spec (fromJson j) Alike (j.elementsAt (str "platforms") = []) := by
  have hspec := InPlace.push_spec Json.getStr (j.elementsAt (str "platforms"))
  constructor
  · intro a u b hu
    obtain ⟨⟨h1, h2, h3⟩, h4⟩ := fromJson_eq_some.mp hu
    obtain ⟨platforms, h4⟩ := hspec.accepts b.platforms h4
    exact ⟨{ u with platforms }, fromJson_eq_some.mpr ⟨⟨h1, h2, h3⟩, h4⟩⟩
  · intro a b u hu
    obtain ⟨hread, h4⟩ := fromJson_eq_some.mp hu
    rw [fromJson_eq_some, and_iff_right hread, hspec.same_iff h4]
    exact ⟨fun h => ⟨h⟩, fun h => h.platforms⟩
  · intro a u hu
    obtain ⟨hread, h4⟩ := fromJson_eq_some.mp hu
    rw [fromJson_eq_some, and_iff_right hread, hspec.again_iff h4]

theorem fromJson_eq_some {a u : Config} : fromJson j a = some u ↔
    InPlace.set ServerConfig.fromJson (j.objectAt (str "server")) a.server = some u.server ∧
    InPlace.set LLMConfig.fromJson (j.objectAt (str "llm")) a.llm = some u.llm ∧
    InPlace.set BrowserConfig.fromJson (j.objectAt (str "browser")) a.browser = some u.browser ∧
    InPlace.assign (fun val => PlatformConfig.fromJson val {}) (j.membersAt (str "platforms")) a.platforms =
      some u.platforms ∧
    InPlace.push (fun t => TaskConfig.fromJson t {}) (j.elementsAt (str "tasks")) a.tasks = some u.tasks := by
  simp only [fromJson, Option.bind_eq_bind, Option.bind_eq_some_iff, Option.pure_def, Option.some.injEq]
  constructor
  · rintro ⟨_, h1, _, h2, _, h3, _, h4, _, h5, rfl⟩
    exact ⟨h1, h2, h3, h4, h5⟩
  · rintro ⟨h1, h2, h3, h4, h5⟩
    exact ⟨_, h1, _, h2, _, h3, _, h4, _, h5, rfl⟩

theorem fromJson_spec (j : Json) : InPlace.Spec (fromJson j) (Alike j) (j.elementsAt (str "tasks") = []) := by
  have hserver := InPlace.set_spec ServerConfig.fromJson (j.objectAt (str "server"))
  have hllm := InPlace.set_spec LLMConfig.fromJson (j.objectAt (str "llm"))
  have hbrowser := InPlace.set_spec BrowserConfig.fromJson (j.objectAt (str "browser"))
  have hplatforms := InPlace.assign_spec (fun val => PlatformConfig.fromJson val {}) (j.membersAt (str "platforms"))
  have htasks := InPlace.push_spec (fun t => TaskConfig.fromJson t {}) (j.elementsAt (str "tasks"))
  constructor
  · intro a u b hu
    obtain ⟨h1, h2, h3, h4, h5⟩ := fromJson_eq_some.mp hu
    obtain ⟨server, h1⟩ := hserver.accepts b.server h1
    obtain ⟨llm, h2⟩ := hllm.accepts b.llm h2
    obtain ⟨browser, h3⟩ := hbrowser.accepts b.browser h3
    obtain ⟨platforms, h4⟩ := hplatforms.accepts b.platforms h4
    obtain ⟨tasks, h5⟩ := htasks.accepts b.tasks h5
    exact ⟨{ server, llm, browser, platforms, tasks }, fromJson_eq_some.mpr ⟨h1, h2, h3, h4, h5⟩⟩
  · intro a b u hu
    obtain ⟨h1, h2, h3, h4, h5⟩ := fromJson_eq_some.mp hu
    rw [fromJson_eq_some, hserver.same_iff h1, hllm.same_iff h2, hbrowser.same_iff h3, hplatforms.same_iff h4,
      htasks.same_iff h5]
    constructor
    · rintro ⟨h1, h2, h3, h4, h5⟩
      exact ⟨h1, h2, h3, h4, h5⟩
    · rintro ⟨h1, h2, h3, h4, h5⟩
      exact ⟨h1, h2, h3, h4, h5⟩
  · intro a u hu
    obtain ⟨h1, h2, h3, h4, h5⟩ := fromJson_eq_some.mp hu
    rw [fromJson_eq_some, hserver.again_iff h1, hllm.again_iff h2, hbrowser.again_iff h3, hplatforms.again_iff h4,
      htasks.again_iff h5]
    simp only [true_and]

theorem PlatformConfig.not_overwrites (hj : (fromJson j {}).isSome) : ¬ InPlace.Overwrites (fromJson j) := by
  intro h
  obtain ⟨key, hkey⟩ := Infinite.exists_notMem_finset ((j.membersAt (str "account")).map Prod.fst).toFinset
  have halike := (fromJson_spec j).overwrites_iff.mp h {} { account := Finmap.singleton key [] } hj
  have hlookup := halike.account key (by simpa using hkey)
  simp at hlookup

theorem TaskConfig.not_overwrites (hj : (fromJson j {}).isSome) : ¬ InPlace.Overwrites (fromJson j) := by
  intro h
  have halike := (fromJson_spec j).overwrites_iff.mp h {} { platforms := [[]] } hj
  cases halike.platforms

theorem not_overwrites (hj : (fromJson j {}).isSome) : ¬ InPlace.Overwrites (fromJson j) := by
  intro h
  have halike := (fromJson_spec j).overwrites_iff.mp h {} { tasks := [{}] } hj
  cases halike.tasks

end Decoders
end Config

/-- A value that is accepted makes the same of two objects exactly if they agree on what it leaves
alone, and decoding it once more adds nothing exactly if it has nothing to push to the back. -/
theorem decoding_forgets_iff (j : Json) :
    InPlace.Spec (Config.fromJson j) (Config.Alike j) (j.elementsAt (str "tasks") = []) ∧
    InPlace.Spec (Config.TaskConfig.fromJson j) Config.TaskConfig.Alike (j.elementsAt (str "platforms") = []) ∧
    InPlace.Spec (Config.PlatformConfig.fromJson j) (Config.PlatformConfig.Alike j) True ∧
    InPlace.Spec (UnifiedItem.fromJson j) (UnifiedItem.Alike j) True :=
  ⟨Config.fromJson_spec j, Config.TaskConfig.fromJson_spec j, Config.PlatformConfig.fromJson_spec j,
    UnifiedItem.fromJson_spec j⟩

/-- A task that is decoded twice has its platform twice. -/
theorem repeated_decoding_grows : ¬ ∀ j : Json,
    InPlace.Overwrites (Config.fromJson j) ∧ InPlace.Overwrites (Config.TaskConfig.fromJson j) ∧
    InPlace.Overwrites (Config.PlatformConfig.fromJson j) ∧ InPlace.Overwrites (UnifiedItem.fromJson j) := by
  intro h
  have htwice := (h (.obj [(str "platforms", .arr [.str (str "xhs")])])).2.1 {} { platforms := [str "xhs"] }
    { platforms := [str "xhs"] } rfl
  have hplatforms := congrArg Config.TaskConfig.platforms (Option.some.inj htwice)
  cases hplatforms

end LynneSocial
