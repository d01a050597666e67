import LynneSocial.Common.Json
import LynneSocial.Lib.InPlace

/-!
# UnifiedItem

The item every adapter produces and the storage keeps, with its JSON encoder
and decoder. The decoder writes into an item that is already there: a field
without a default is left alone when its key is missing.
-/
namespace LynneSocial

structure UnifiedItem where
  platform : Str := []
  itemId : Str := []
  itemType : Str := str "post"
  authorId : Str := []
  authorName : Str := []
  contentText : Str := []
  contentMedia : List Str := []
  url : Str := []
  publishedAt : Str := []
  fetchedAt : Str := []
  metrics : Json := .null
  llmRelevanceScore : Int32 := 0
  llmRelevanceReason : Str := []
  llmSummary : Str := []
  llmTags : List Str := []
  llmKeyPoints : List Str := []

namespace UnifiedItem

def strings (xs : List Str) : Json := .arr (xs.map .str)

def toJson (item : UnifiedItem) : Json :=
  .object [
    (str "platform", .str item.platform),
    (str "item_id", .str item.itemId),
    (str "item_type", .str item.itemType),
    (str "author_id", .str item.authorId),
    (str "author_name", .str item.authorName),
    (str "content_text", .str item.contentText),
    (str "content_media", strings item.contentMedia),
    (str "url", .str item.url),
    (str "published_at", .str item.publishedAt),
    (str "fetched_at", .str item.fetchedAt),
    (str "metrics", item.metrics),
    (str "llm_relevance_score", .int item.llmRelevanceScore.toInt),
    (str "llm_relevance_reason", .str item.llmRelevanceReason),
    (str "llm_summary", .str item.llmSummary),
    (str "llm_tags", strings item.llmTags),
    (str "llm_key_points", strings item.llmKeyPoints)]

def fromJson (j : Json) (item : UnifiedItem) : Option UnifiedItem := do
  let platform ← j.valueStr (str "platform") []
  let itemId ← j.valueStr (str "item_id") []
  let itemType ← j.valueStr (str "item_type") (str "post")
  let authorId ← j.valueStr (str "author_id") []
  let authorName ← j.valueStr (str "author_name") []
  let contentText ← j.valueStr (str "content_text") []
  let contentMedia ← match j.find? (str "content_media") with
    | some x => x.getStrings
    | none => some item.contentMedia
  let url ← j.valueStr (str "url") []
  let publishedAt ← j.valueStr (str "published_at") []
  let fetchedAt ← j.valueStr (str "fetched_at") []
  let metrics := (j.find? (str "metrics")).getD item.metrics
  let llmRelevanceScore ← j.valueInt (str "llm_relevance_score") 0
  let llmRelevanceReason ← j.valueStr (str "llm_relevance_reason") []
  let llmSummary ← j.valueStr (str "llm_summary") []
  let llmTags ← match j.find? (str "llm_tags") with
    | some x => x.getStrings
    | none => some item.llmTags
  let llmKeyPoints ← match j.find? (str "llm_key_points") with
    | some x => x.getStrings
    | none => some item.llmKeyPoints
  return {
    platform, itemId, itemType, authorId, authorName, contentText, contentMedia, url, publishedAt,
    fetchedAt, metrics, llmRelevanceScore := .ofInt llmRelevanceScore, llmRelevanceReason,
    llmSummary, llmTags, llmKeyPoints }

/-- The members in the order of `std::map`. -/
theorem toJson_eq (item : UnifiedItem) : item.toJson =
    .obj [
      (str "author_id", .str item.authorId),
      (str "author_name", .str item.authorName),
      (str "content_media", strings item.contentMedia),
      (str "content_text", .str item.contentText),
      (str "fetched_at", .str item.fetchedAt),
      (str "item_id", .str item.itemId),
      (str "item_type", .str item.itemType),
      (str "llm_key_points", strings item.llmKeyPoints),
      (str "llm_relevance_reason", .str item.llmRelevanceReason),
      (str "llm_relevance_score", .int item.llmRelevanceScore.toInt),
      (str "llm_summary", .str item.llmSummary),
      (str "llm_tags", strings item.llmTags),
      (str "metrics", item.metrics),
      (str "platform", .str item.platform),
      (str "published_at", .str item.publishedAt),
      (str "url", .str item.url)] := by
  rfl

/-- The keys of an encoded item. -/
def keys : List Str :=
  [str "author_id", str "author_name", str "content_media", str "content_text", str "fetched_at",
    str "item_id", str "item_type", str "llm_key_points", str "llm_relevance_reason",
    str "llm_relevance_score", str "llm_summary", str "llm_tags", str "metrics", str "platform",
    str "published_at", str "url"]

theorem keys_sorted : keys.Pairwise (· < ·) := by
  decide

theorem writtenList_strings (xs : List Str) :
    Json.writtenList (xs.map .str) = xs.map .str := by
  induction xs with
  | nil => rfl
  | cons x xs ih => rw [List.map_cons, Json.writtenList, ih]; rfl

theorem written_strings (xs : List Str) : (strings xs).written = strings xs := by
  rw [strings, Json.written, writtenList_strings]

theorem getStrings_strings (xs : List Str) : (strings xs).getStrings = some xs := by
  have : (xs.map Json.str).mapM Json.getStr = some xs := by
    induction xs with
    | nil => rfl
    | cons x xs ih => simp [List.mapM_cons, Json.getStr, ih]
  exact this

theorem ofInt_getInt (n : Int32) : (Json.int n.toInt).getInt.map Int32.ofInt = some n := by
  have hn : toInt32 n.toInt = n.toInt := toInt32_eq_self.mpr ⟨n.le_toInt, n.toInt_lt⟩
  simp only [Json.getInt, hn, Option.map_some, Option.some.injEq]
  exact Int32.toInt_inj.mp (Int32.toInt_ofInt_of_le n.le_toInt n.toInt_lt)

/-- Every field comes back, whatever the decoder writes into; `metrics` as `dump()` wrote it. -/
theorem fromJson_written (item target : UnifiedItem) :
    fromJson item.toJson.written target = some { item with metrics := item.metrics.written } := by
  have hlookup : fromJson item.toJson.written target = (do
      let contentMedia ← (strings item.contentMedia).written.getStrings
      let llmRelevanceScore ← (Json.int item.llmRelevanceScore.toInt).getInt
      let llmTags ← (strings item.llmTags).written.getStrings
      let llmKeyPoints ← (strings item.llmKeyPoints).written.getStrings
      return { item with
        contentMedia, metrics := item.metrics.written, llmRelevanceScore := .ofInt llmRelevanceScore,
        llmTags, llmKeyPoints }) := by
    rw [toJson_eq]
    rfl
  obtain ⟨n, hn, hscore⟩ := Option.map_eq_some_iff.mp (ofInt_getInt item.llmRelevanceScore)
  simp only [hlookup, written_strings, getStrings_strings, hn, Option.bind_eq_bind,
    Option.bind_some, Option.pure_def, hscore]

/-- Every string outside `metrics`. -/
def texts (item : UnifiedItem) : List Str :=
  [item.platform, item.itemId, item.itemType, item.authorId, item.authorName, item.contentText,
    item.url, item.publishedAt, item.fetchedAt, item.llmRelevanceReason, item.llmSummary] ++
    item.contentMedia ++ item.llmTags ++ item.llmKeyPoints

/-- Valid UTF-8 throughout and no number that is not finite. -/
structure Clean (item : UnifiedItem) : Prop where
  texts : ∀ s ∈ item.texts, validUtf8 s = true
  dumpable : item.metrics.dumpable = true
  finite : item.metrics.finite = true

theorem allList_strings {p : Json → Bool} {xs : List Str} (h : ∀ s ∈ xs, p (.str s) = true) :
    Json.allList p (xs.map .str) = true := by
  induction xs with
  | nil => rfl
  | cons x xs ih =>
      have hx : (Json.str x).all p = true := h x List.mem_cons_self
      simp only [List.map_cons, Json.allList, hx, Bool.true_and]
      exact ih fun s hs => h s (List.mem_cons_of_mem _ hs)

/-- A property of every node of the encoded item. -/
theorem toJson_all {p : Json → Bool} {item : UnifiedItem} (hobj : p item.toJson = true)
    (hstr : ∀ s ∈ item.texts, p (.str s) = true) (harr : ∀ xs, p (.arr xs) = true)
    (hint : p (.int item.llmRelevanceScore.toInt) = true) (hmetrics : item.metrics.all p = true) :
    item.toJson.all p = true := by
  have hs : ∀ s ∈ item.texts, (Json.str s).all p = true := hstr
  have hlist : ∀ xs : List Str, (∀ s ∈ xs, s ∈ item.texts) → (strings xs).all p = true := by
    intro xs hxs
    simp only [strings, Json.all, harr, Bool.true_and]
    exact allList_strings fun s hs => hstr s (hxs s hs)
  have hn : (Json.int item.llmRelevanceScore.toInt).all p = true := hint
  have hmedia := hlist item.contentMedia fun s hs => by simp [texts, hs]
  have htags := hlist item.llmTags fun s hs => by simp [texts, hs]
  have hpoints := hlist item.llmKeyPoints fun s hs => by simp [texts, hs]
  rw [toJson_eq] at hobj ⊢
  simp only [Json.all, hobj, Bool.true_and]
  simp only [Json.allMembers, hmedia, htags, hpoints, hn, hmetrics, Bool.and_true, Bool.true_and,
    Bool.and_eq_true]
  refine ⟨?_, ?_, ?_, ?_, ?_, ?_, ?_, ?_, ?_, ?_, ?_⟩ <;> exact hs _ (by simp [texts])

theorem Clean.toJson_dumpable {item : UnifiedItem} (h : item.Clean) :
    item.toJson.dumpable = true :=
  toJson_all (by rw [toJson_eq]; rfl) h.texts (fun _ => rfl) rfl h.dumpable

theorem toJson_wellFormed {item : UnifiedItem} (h : item.metrics.wellFormed = true) :
    item.toJson.wellFormed = true := by
  have hlo := item.llmRelevanceScore.le_toInt
  have hhi := item.llmRelevanceScore.toInt_lt
  refine toJson_all ?_ (fun _ _ => rfl) (fun _ => rfl) (decide_eq_true ⟨by omega, by omega⟩) h
  rw [toJson_eq]
  exact decide_eq_true keys_sorted

/-- The items agree on the fields without a default that the value does not give. -/
structure Alike (j : Json) (a b : UnifiedItem) : Prop where
  contentMedia : j.find? (str "content_media") = none → a.contentMedia = b.contentMedia
  metrics : j.find? (str "metrics") = none → a.metrics = b.metrics
  llmTags : j.find? (str "llm_tags") = none → a.llmTags = b.llmTags
  llmKeyPoints : j.find? (str "llm_key_points") = none → a.llmKeyPoints = b.llmKeyPoints

/-- The fields that are read whatever is in the item. -/
structure Read (j : Json) (item : UnifiedItem) : Prop where
  platform : j.valueStr (str "platform") [] = some item.platform
  itemId : j.valueStr (str "item_id") [] = some item.itemId
  itemType : j.valueStr (str "item_type") (str "post") = some item.itemType
  authorId : j.valueStr (str "author_id") [] = some item.authorId
  authorName : j.valueStr (str "author_name") [] = some item.authorName
  contentText : j.valueStr (str "content_text") [] = some item.contentText
  url : j.valueStr (str "url") [] = some item.url
  publishedAt : j.valueStr (str "published_at") [] = some item.publishedAt
  fetchedAt : j.valueStr (str "fetched_at") [] = some item.fetchedAt
  llmRelevanceScore : (j.valueInt (str "llm_relevance_score") 0).map Int32.ofInt = some item.llmRelevanceScore
  llmRelevanceReason : j.valueStr (str "llm_relevance_reason") [] = some item.llmRelevanceReason
  llmSummary : j.valueStr (str "llm_summary") [] = some item.llmSummary

/-- The fields without a default are set if their key is there. -/
theorem fromJson_eq (j : Json) (item : UnifiedItem) : fromJson j item = (do
    let platform ← j.valueStr (str "platform") []
    let itemId ← j.valueStr (str "item_id") []
    let itemType ← j.valueStr (str "item_type") (str "post")
    let authorId ← j.valueStr (str "author_id") []
    let authorName ← j.valueStr (str "author_name") []
    let contentText ← j.valueStr (str "content_text") []
    let contentMedia ← InPlace.set Json.getStrings (j.find? (str "content_media")) item.contentMedia
    let url ← j.valueStr (str "url") []
    let publishedAt ← j.valueStr (str "published_at") []
    let fetchedAt ← j.valueStr (str "fetched_at") []
    let metrics ← InPlace.set some (j.find? (str "metrics")) item.metrics
    let llmRelevanceScore ← j.valueInt (str "llm_relevance_score") 0
    let llmRelevanceReason ← j.valueStr (str "llm_relevance_reason") []
    let llmSummary ← j.valueStr (str "llm_summary") []
    let llmTags ← InPlace.set Json.getStrings (j.find? (str "llm_tags")) item.llmTags
    let llmKeyPoints ← InPlace.set Json.getStrings (j.find? (str "llm_key_points")) item.llmKeyPoints
    return {
      platform, itemId, itemType, authorId, authorName, contentText, contentMedia, url, publishedAt,
      fetchedAt, metrics, llmRelevanceScore := .ofInt llmRelevanceScore, llmRelevanceReason,
      llmSummary, llmTags, llmKeyPoints }) := by
  unfold fromJson
  generalize j.find? (str "content_media") = contentMedia, j.find? (str "metrics") = metrics,
    j.find? (str "llm_tags") = llmTags, j.find? (str "llm_key_points") = llmKeyPoints
  cases contentMedia <;> cases metrics <;> cases llmTags <;> cases llmKeyPoints <;> rfl

theorem fromJson_eq_some {j : Json} {a u : UnifiedItem} : fromJson j a = some u ↔ Read j u ∧
    InPlace.set Json.getStrings (j.find? (str "content_media")) a.contentMedia = some u.contentMedia ∧
    InPlace.set some (j.find? (str "metrics")) a.metrics = some u.metrics ∧
    InPlace.set Json.getStrings (j.find? (str "llm_tags")) a.llmTags = some u.llmTags ∧
    InPlace.set Json.getStrings (j.find? (str "llm_key_points")) a.llmKeyPoints = some u.llmKeyPoints := by
  rw [fromJson_eq]
  constructor
  · intro hu
    obtain ⟨platform, h1, hu⟩ := Option.bind_eq_some_iff.mp hu
    obtain ⟨itemId, h2, hu⟩ := Option.bind_eq_some_iff.mp hu
    obtain ⟨itemType, h3, hu⟩ := Option.bind_eq_some_iff.mp hu
    obtain ⟨authorId, h4, hu⟩ := Option.bind_eq_some_iff.mp hu
    obtain ⟨authorName, h5, hu⟩ := Option.bind_eq_some_iff.mp hu
    obtain ⟨contentText, h6, hu⟩ := Option.bind_eq_some_iff.mp hu
    obtain ⟨contentMedia, hmedia, hu⟩ := Option.bind_eq_some_iff.mp hu
    obtain ⟨url, h7, hu⟩ := Option.bind_eq_some_iff.mp hu
    obtain ⟨publishedAt, h8, hu⟩ := Option.bind_eq_some_iff.mp hu
    obtain ⟨fetchedAt, h9, hu⟩ := Option.bind_eq_some_iff.mp hu
    obtain ⟨metrics, hmetrics, hu⟩ := Option.bind_eq_some_iff.mp hu
    obtain ⟨llmRelevanceScore, hscore, hu⟩ := Option.bind_eq_some_iff.mp hu
    obtain ⟨llmRelevanceReason, h11, hu⟩ := Option.bind_eq_some_iff.mp hu
    obtain ⟨llmSummary, h12, hu⟩ := Option.bind_eq_some_iff.mp hu
    obtain ⟨llmTags, htags, hu⟩ := Option.bind_eq_some_iff.mp hu
    obtain ⟨llmKeyPoints, hpoints, hu⟩ := Option.bind_eq_some_iff.mp hu
    obtain rfl := Option.some.inj hu
    have h10 : (j.valueInt (str "llm_relevance_score") 0).map Int32.ofInt = some (.ofInt llmRelevanceScore) := by
      rw [hscore, Option.map_some]
    exact ⟨⟨h1, h2, h3, h4, h5, h6, h7, h8, h9, h10, h11, h12⟩, hmedia, hmetrics, htags, hpoints⟩
  · rintro ⟨⟨h1, h2, h3, h4, h5, h6, h7, h8, h9, h10, h11, h12⟩, hmedia, hmetrics, htags, hpoints⟩
    obtain ⟨score, hscore, h10⟩ := Option.map_eq_some_iff.mp h10
    simp only [h1, h2, h3, h4, h5, h6, h7, h8, h9, hscore, h11, h12, hmedia, hmetrics, htags, hpoints,
      Option.bind_eq_bind, Option.bind_some, Option.pure_def, h10]

theorem Read.rest {j : Json} {item : UnifiedItem} (h : Read j item) (contentMedia : List Str) (metrics : Json)
    (llmTags llmKeyPoints : List Str) :
    Read j { item with contentMedia, metrics, llmTags, llmKeyPoints } := by
  cases h
  constructor <;> assumption

theorem fromJson_spec (j : Json) : InPlace.Spec (fromJson j) (Alike j) True := by
  have hmedia := InPlace.set_spec Json.getStrings (j.find? (str "content_media"))
  have hmetrics := InPlace.set_spec some (j.find? (str "metrics"))
  have htags := InPlace.set_spec Json.getStrings (j.find? (str "llm_tags"))
  have hpoints := InPlace.set_spec Json.getStrings (j.find? (str "llm_key_points"))
  constructor
  · intro a u b hu
    obtain ⟨hread, h1, h2, h3, h4⟩ := fromJson_eq_some.mp hu
    obtain ⟨contentMedia, h1⟩ := hmedia.accepts b.contentMedia h1
    obtain ⟨metrics, h2⟩ := hmetrics.accepts b.metrics h2
    obtain ⟨llmTags, h3⟩ := htags.accepts b.llmTags h3
    obtain ⟨llmKeyPoints, h4⟩ := hpoints.accepts b.llmKeyPoints h4
    exact ⟨_, fromJson_eq_some.mpr ⟨hread.rest contentMedia metrics llmTags llmKeyPoints, h1, h2, h3, h4⟩⟩
  · intro a b u hu
    obtain ⟨hread, h1, h2, h3, h4⟩ := fromJson_eq_some.mp hu
    rw [fromJson_eq_some, and_iff_right hread, hmedia.same_iff h1, hmetrics.same_iff h2, htags.same_iff h3,
      hpoints.same_iff h4]
    constructor
    · rintro ⟨h1, h2, h3, h4⟩
      exact ⟨h1, h2, h3, h4⟩
    · rintro ⟨h1, h2, h3, h4⟩
      exact ⟨h1, h2, h3, h4⟩
  · intro a u hu
    obtain ⟨hread, h1, h2, h3, h4⟩ := fromJson_eq_some.mp hu
    rw [fromJson_eq_some, and_iff_right hread, hmedia.again_iff h1, hmetrics.again_iff h2, htags.again_iff h3,
      hpoints.again_iff h4]
    simp only [and_true]

/-- A value makes the same item of every other one if it gives all four of these fields. -/
theorem overwrites_iff {j : Json} (hj : (fromJson j {}).isSome) : InPlace.Overwrites (fromJson j) ↔
    j.contains (str "content_media") ∧ j.contains (str "metrics") ∧ j.contains (str "llm_tags") ∧
      j.contains (str "llm_key_points") := by
  have hgiven : ∀ {τ : Type} {key : Str} (get : UnifiedItem → τ) (x : UnifiedItem),
      get x ≠ get {} → (j.find? key = none → get x = get {}) → j.contains key := by
    intro τ key get x hne h
    rw [Json.contains, ← Option.ne_none_iff_isSome]
    exact fun hnone => hne (h hnone)
  rw [(fromJson_spec j).overwrites_iff]
  constructor
  · intro hall
    have halike : ∀ x, Alike j x {} := fun x => hall x {} ((fromJson_spec j).isSome hj x)
    refine ⟨hgiven contentMedia { contentMedia := [[]] } nofun (halike _).contentMedia,
      hgiven metrics { metrics := .bool true } nofun (halike _).metrics,
      hgiven llmTags { llmTags := [[]] } nofun (halike _).llmTags,
      hgiven llmKeyPoints { llmKeyPoints := [[]] } nofun (halike _).llmKeyPoints⟩
  · rintro ⟨h1, h2, h3, h4⟩ a b -
    have hgone : ∀ {key : Str} {P : Prop}, j.contains key → j.find? key = none → P := by
      intro key P hkey hnone
      rw [Json.contains, hnone] at hkey
      cases hkey
    exact ⟨hgone h1, hgone h2, hgone h3, hgone h4⟩

end UnifiedItem

end LynneSocial
