import LynneSocial.Common.Json

/-!
# BrowserConfig

There are two types of this name. The one of `wheel/config` is a part of the
program's configuration, the one of `wheel/browser` is what the browser manager
is given. Both are read from the `browser` node of config.json and have six
settings in common, some of them under a key or with a default of its own.
-/
namespace LynneSocial

structure Settings where
  headless : Bool
  slowMo : ℤ
  viewportWidth : ℤ
  viewportHeight : ℤ
  locale : Str
  timeout : ℤ

namespace Config

structure BrowserConfig where
  headless : Bool := false
  slowMo : ℤ := 500
  viewportWidth : ℤ := 1920
  viewportHeight : ℤ := 1080
  locale : Str := str "zh-CN"
  timeout : ℤ := 30000

namespace BrowserConfig

def fromJson (j : Json) : Option BrowserConfig := do
  let headless ← j.valueBool (str "headless") false
  let slowMo ← j.valueInt (str "slow_mo") 500
  let viewportWidth ← j.valueInt (str "viewport_width") 1920
  let viewportHeight ← j.valueInt (str "viewport_height") 1080
  let locale ← j.valueStr (str "locale") (str "zh-CN")
  let timeout ← j.valueInt (str "timeout") 30000
  return { headless, slowMo, viewportWidth, viewportHeight, locale, timeout }

def settings (c : BrowserConfig) : Settings :=
  { headless := c.headless, slowMo := c.slowMo, viewportWidth := c.viewportWidth,
    viewportHeight := c.viewportHeight, locale := c.locale, timeout := c.timeout }

end BrowserConfig
end Config

namespace Browser

structure BrowserConfig where
  headless : Bool := true
  slowMoMs : ℤ := 500
  viewportWidth : ℤ := 1920
  viewportHeight : ℤ := 1080
  locale : Str := str "zh-CN"
  timeoutMs : ℤ := 30000
  sessionsDir : Str := str "data/sessions"
  cdpPort : ℤ := 0
  chromePath : Str := []

namespace BrowserConfig

def toJson (cfg : BrowserConfig) : Json :=
  .object [
    (str "headless", .bool cfg.headless),
    (str "slow_mo_ms", .int cfg.slowMoMs),
    (str "viewport_width", .int cfg.viewportWidth),
    (str "viewport_height", .int cfg.viewportHeight),
    (str "locale", .str cfg.locale),
    (str "timeout_ms", .int cfg.timeoutMs),
    (str "sessions_dir", .str cfg.sessionsDir),
    (str "cdp_port", .int cfg.cdpPort),
    (str "chrome_path", .str cfg.chromePath)]

def fromJson (j : Json) : Option BrowserConfig := do
  let headless ← j.valueBool (str "headless") true
  let slowMoMs ← j.valueInt (str "slow_mo_ms") 500
  let viewportWidth ← j.valueInt (str "viewport_width") 1920
  let viewportHeight ← j.valueInt (str "viewport_height") 1080
  let locale ← j.valueStr (str "locale") (str "zh-CN")
  let timeoutMs ← j.valueInt (str "timeout_ms") 30000
  let sessionsDir ← j.valueStr (str "sessions_dir") (str "data/sessions")
  let cdpPort ← j.valueInt (str "cdp_port") 0
  let chromePath ← j.valueStr (str "chrome_path") []
  return {
    headless, slowMoMs, viewportWidth, viewportHeight, locale, timeoutMs, sessionsDir, cdpPort, chromePath }

def settings (c : BrowserConfig) : Settings :=
  { headless := c.headless, slowMo := c.slowMoMs, viewportWidth := c.viewportWidth,
    viewportHeight := c.viewportHeight, locale := c.locale, timeout := c.timeoutMs }

/-- An `int` member. -/
def IsInt (n : ℤ) : Prop := -2 ^ 31 ≤ n ∧ n < 2 ^ 31

/-- What the manager's own encoder writes is read back. -/
theorem fromJson_toJson (cfg : BrowserConfig) (hslow : IsInt cfg.slowMoMs) (hwidth : IsInt cfg.viewportWidth)
    (hheight : IsInt cfg.viewportHeight) (htimeout : IsInt cfg.timeoutMs) (hport : IsInt cfg.cdpPort) :
    fromJson cfg.toJson = some cfg := by
  have hread : fromJson cfg.toJson = some { cfg with
      slowMoMs := toInt32 cfg.slowMoMs, viewportWidth := toInt32 cfg.viewportWidth,
      viewportHeight := toInt32 cfg.viewportHeight, timeoutMs := toInt32 cfg.timeoutMs,
      cdpPort := toInt32 cfg.cdpPort } := rfl
  rw [hread, toInt32_eq_self.mpr hslow, toInt32_eq_self.mpr hwidth, toInt32_eq_self.mpr hheight,
    toInt32_eq_self.mpr htimeout, toInt32_eq_self.mpr hport]

end BrowserConfig
end Browser

section Members
variable {β : Type} {get : Json → Option β} {fallback : β} {m a b : Option Json}

/-- What `value` makes of the member it finds, if there is one. -/
def Json.reading (get : Json → Option β) (fallback : β) : Option Json → Option β
  | some x => get x
  | none => some fallback

/-- The member is missing or converts. -/
def Fits (get : Json → Option β) (m : Option Json) : Prop := ∀ x ∈ m, (get x).isSome

instance (get : Json → Option β) (m : Option Json) : Decidable (Fits get m) :=
  inferInstanceAs (Decidable (∀ x ∈ m, (get x).isSome))

theorem reading_isSome : (Json.reading get fallback m).isSome ↔ Fits get m := by
  cases m <;> simp [Json.reading, Fits]

theorem fits_of_reading {v : β} (h : Json.reading get fallback m = some v) : Fits get m :=
  reading_isSome.mp (Option.isSome_iff_exists.mpr ⟨v, h⟩)

theorem Fits.reading (h : Fits get m) (fallback : β) : ∃ v, Json.reading get fallback m = some v :=
  Option.isSome_iff_exists.mp (reading_isSome.mpr h)

/-- Two members give one number; a missing one stands for the default. -/
def SameNumber (fallback : ℤ) : Option Json → Option Json → Prop
  | none, none => True
  | some x, none | none, some x => x.getInt = some fallback
  | some x, some y => x.getInt = y.getInt

theorem reading_eq_iff {fallback : ℤ} :
    Json.reading Json.getInt fallback a = Json.reading Json.getInt fallback b ↔ SameNumber fallback a b := by
  cases a <;> cases b <;> simp [Json.reading, SameNumber, eq_comm]

end Members

section Node
variable {members : List (Str × Json)}

/-- The member with that key. -/
def member (members : List (Str × Json)) (key : String) : Option Json := members.lookup (str key)

/-- The members that both look for. -/
structure SharedFit (members : List (Str × Json)) : Prop where
  headless : Fits Json.getBool (member members "headless")
  viewportWidth : Fits Json.getInt (member members "viewport_width")
  viewportHeight : Fits Json.getInt (member members "viewport_height")
  locale : Fits Json.getStr (member members "locale")

structure ConfigFit (members : List (Str × Json)) : Prop where
  slowMo : Fits Json.getInt (member members "slow_mo")
  timeout : Fits Json.getInt (member members "timeout")

structure BrowserFit (members : List (Str × Json)) : Prop where
  slowMoMs : Fits Json.getInt (member members "slow_mo_ms")
  timeoutMs : Fits Json.getInt (member members "timeout_ms")
  sessionsDir : Fits Json.getStr (member members "sessions_dir")
  cdpPort : Fits Json.getInt (member members "cdp_port")
  chromePath : Fits Json.getStr (member members "chrome_path")

theorem config_fromJson {c : Config.BrowserConfig} : Config.BrowserConfig.fromJson (.obj members) = some c ↔
    Json.reading Json.getBool false (member members "headless") = some c.headless ∧
    Json.reading Json.getInt 500 (member members "slow_mo") = some c.slowMo ∧
    Json.reading Json.getInt 1920 (member members "viewport_width") = some c.viewportWidth ∧
    Json.reading Json.getInt 1080 (member members "viewport_height") = some c.viewportHeight ∧
    Json.reading Json.getStr (str "zh-CN") (member members "locale") = some c.locale ∧
    Json.reading Json.getInt 30000 (member members "timeout") = some c.timeout := by
  simp only [Config.BrowserConfig.fromJson, Option.bind_eq_bind, Option.bind_eq_some_iff, Option.pure_def,
    Option.some.injEq]
  constructor
  · rintro ⟨_, h1, _, h2, _, h3, _, h4, _, h5, _, h6, rfl⟩
    exact ⟨h1, h2, h3, h4, h5, h6⟩
  · rintro ⟨h1, h2, h3, h4, h5, h6⟩
    exact ⟨_, h1, _, h2, _, h3, _, h4, _, h5, _, h6, rfl⟩

theorem browser_fromJson {c : Browser.BrowserConfig} : Browser.BrowserConfig.fromJson (.obj members) = some c ↔
    Json.reading Json.getBool true (member members "headless") = some c.headless ∧
    Json.reading Json.getInt 500 (member members "slow_mo_ms") = some c.slowMoMs ∧
    Json.reading Json.getInt 1920 (member members "viewport_width") = some c.viewportWidth ∧
    Json.reading Json.getInt 1080 (member members "viewport_height") = some c.viewportHeight ∧
    Json.reading Json.getStr (str "zh-CN") (member members "locale") = some c.locale ∧
    Json.reading Json.getInt 30000 (member members "timeout_ms") = some c.timeoutMs ∧
    Json.reading Json.getStr (str "data/sessions") (member members "sessions_dir") = some c.sessionsDir ∧
    Json.reading Json.getInt 0 (member members "cdp_port") = some c.cdpPort ∧
    Json.reading Json.getStr [] (member members "chrome_path") = some c.chromePath := by
  simp only [Browser.BrowserConfig.fromJson, Option.bind_eq_bind, Option.bind_eq_some_iff, Option.pure_def,
    Option.some.injEq]
  constructor
  · rintro ⟨_, h1, _, h2, _, h3, _, h4, _, h5, _, h6, _, h7, _, h8, _, h9, rfl⟩
    exact ⟨h1, h2, h3, h4, h5, h6, h7, h8, h9⟩
  · rintro ⟨h1, h2, h3, h4, h5, h6, h7, h8, h9⟩
    exact ⟨_, h1, _, h2, _, h3, _, h4, _, h5, _, h6, _, h7, _, h8, _, h9, rfl⟩

/-- A node is rejected only for a member of the wrong type. -/
theorem config_accepts_iff :
    (Config.BrowserConfig.fromJson (.obj members)).isSome ↔ SharedFit members ∧ ConfigFit members := by
  rw [Option.isSome_iff_exists]
  constructor
  · rintro ⟨c, hc⟩
    obtain ⟨h1, h2, h3, h4, h5, h6⟩ := config_fromJson.mp hc
    exact ⟨⟨fits_of_reading h1, fits_of_reading h3, fits_of_reading h4, fits_of_reading h5⟩,
      ⟨fits_of_reading h2, fits_of_reading h6⟩⟩
  · rintro ⟨⟨h1, h3, h4, h5⟩, ⟨h2, h6⟩⟩
    obtain ⟨headless, h1⟩ := h1.reading false
    obtain ⟨slowMo, h2⟩ := h2.reading 500
    obtain ⟨viewportWidth, h3⟩ := h3.reading 1920
    obtain ⟨viewportHeight, h4⟩ := h4.reading 1080
    obtain ⟨locale, h5⟩ := h5.reading (str "zh-CN")
    obtain ⟨timeout, h6⟩ := h6.reading 30000
    exact ⟨{ headless, slowMo, viewportWidth, viewportHeight, locale, timeout },
      config_fromJson.mpr ⟨h1, h2, h3, h4, h5, h6⟩⟩

theorem browser_accepts_iff :
    (Browser.BrowserConfig.fromJson (.obj members)).isSome ↔ SharedFit members ∧ BrowserFit members := by
  rw [Option.isSome_iff_exists]
  constructor
  · rintro ⟨c, hc⟩
    obtain ⟨h1, h2, h3, h4, h5, h6, h7, h8, h9⟩ := browser_fromJson.mp hc
    exact ⟨⟨fits_of_reading h1, fits_of_reading h3, fits_of_reading h4, fits_of_reading h5⟩,
      ⟨fits_of_reading h2, fits_of_reading h6, fits_of_reading h7, fits_of_reading h8, fits_of_reading h9⟩⟩
  · rintro ⟨⟨h1, h3, h4, h5⟩, ⟨h2, h6, h7, h8, h9⟩⟩
    obtain ⟨headless, h1⟩ := h1.reading true
    obtain ⟨slowMoMs, h2⟩ := h2.reading 500
    obtain ⟨viewportWidth, h3⟩ := h3.reading 1920
    obtain ⟨viewportHeight, h4⟩ := h4.reading 1080
    obtain ⟨locale, h5⟩ := h5.reading (str "zh-CN")
    obtain ⟨timeoutMs, h6⟩ := h6.reading 30000
    obtain ⟨sessionsDir, h7⟩ := h7.reading (str "data/sessions")
    obtain ⟨cdpPort, h8⟩ := h8.reading 0
    obtain ⟨chromePath, h9⟩ := h9.reading []
    exact ⟨{ headless, slowMoMs, viewportWidth, viewportHeight, locale, timeoutMs, sessionsDir, cdpPort, chromePath },
      browser_fromJson.mpr ⟨h1, h2, h3, h4, h5, h6, h7, h8, h9⟩⟩

/-- The node says whether to run headless, and what it says of the delay and of the timeout under
the keys of one parser it says under those of the other. -/
structure Consistent (members : List (Str × Json)) : Prop where
  headless : (member members "headless").isSome
  slowMo : SameNumber 500 (member members "slow_mo") (member members "slow_mo_ms")
  timeout : SameNumber 30000 (member members "timeout") (member members "timeout_ms")

theorem settings_eq_iff {a : Config.BrowserConfig} {b : Browser.BrowserConfig}
    (ha : Config.BrowserConfig.fromJson (.obj members) = some a)
    (hb : Browser.BrowserConfig.fromJson (.obj members) = some b) :
    a.settings = b.settings ↔ Consistent members := by
  obtain ⟨h1, h2, h3, h4, h5, h6⟩ := config_fromJson.mp ha
  obtain ⟨k1, k2, k3, k4, k5, k6, -⟩ := browser_fromJson.mp hb
  have hheadless : a.headless = b.headless ↔ (member members "headless").isSome := by
    cases hm : member members "headless" with
    | none =>
        rw [hm] at h1 k1
        simp [← Option.some.inj h1, ← Option.some.inj k1]
    | some x =>
        rw [hm] at h1 k1
        exact iff_of_true (Option.some.inj (h1.symm.trans k1)) rfl
  have hslow : a.slowMo = b.slowMoMs ↔ SameNumber 500 (member members "slow_mo") (member members "slow_mo_ms") := by
    rw [← reading_eq_iff, h2, k2, Option.some.injEq]
  have htimeout : a.timeout = b.timeoutMs ↔
      SameNumber 30000 (member members "timeout") (member members "timeout_ms") := by
    rw [← reading_eq_iff, h6, k6, Option.some.injEq]
  have hwidth : a.viewportWidth = b.viewportWidth := Option.some.inj (h3.symm.trans k3)
  have hheight : a.viewportHeight = b.viewportHeight := Option.some.inj (h4.symm.trans k4)
  have hlocale : a.locale = b.locale := Option.some.inj (h5.symm.trans k5)
  simp only [Config.BrowserConfig.settings, Browser.BrowserConfig.settings, Settings.mk.injEq, hwidth, hheight,
    hlocale, true_and, hheadless, hslow, htimeout]
  constructor
  · rintro ⟨h, h', h''⟩
    exact ⟨h, h', h''⟩
  · rintro ⟨h, h', h''⟩
    exact ⟨h, h', h''⟩

/-- The settings that the two parsers have in common are equal, or neither accepts the node. -/
def Agree (j : Json) : Prop :=
  (Config.BrowserConfig.fromJson j).map Config.BrowserConfig.settings =
    (Browser.BrowserConfig.fromJson j).map Browser.BrowserConfig.settings

theorem browser_configs_agree_iff (members : List (Str × Json)) :
    Agree (.obj members) ↔ ¬ SharedFit members ∨ ¬ ConfigFit members ∧ ¬ BrowserFit members ∨
      ConfigFit members ∧ BrowserFit members ∧ Consistent members := by
  have ha := @config_accepts_iff members
  have hb := @browser_accepts_iff members
  unfold Agree
  cases hc : Config.BrowserConfig.fromJson (.obj members) with
  | none =>
      simp only [hc, Option.isSome_none, Bool.false_eq_true, false_iff, not_and] at ha
      cases hd : Browser.BrowserConfig.fromJson (.obj members) with
      | none =>
          simp only [hd, Option.isSome_none, Bool.false_eq_true, false_iff, not_and] at hb
          simp only [Option.map_none, true_iff]
          by_cases hs : SharedFit members
          · exact .inr (.inl ⟨ha hs, hb hs⟩)
          · exact .inl hs
      | some b =>
          simp only [hd, Option.isSome_some, true_iff] at hb
          simp [hb.1, hb.2, ha hb.1]
  | some a =>
      simp only [hc, Option.isSome_some, true_iff] at ha
      cases hd : Browser.BrowserConfig.fromJson (.obj members) with
      | none =>
          simp only [hd, Option.isSome_none, Bool.false_eq_true, false_iff, not_and] at hb
          simp [ha.1, ha.2, hb ha.1]
      | some b =>
          simp only [hd, Option.isSome_some, true_iff] at hb
          simp [ha.1, ha.2, hb.2, settings_eq_iff hc hd]

/-- Without any member the program would show its browser and the manager would not. -/
theorem empty_node_disagrees : ¬ ∀ members : List (Str × Json), Agree (.obj members) := by
  intro h
  have hall := Option.some.inj (h [])
  have hheadless : false = true := congrArg Settings.headless hall
  cases hheadless

end Node

end LynneSocial
