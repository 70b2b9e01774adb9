import Hlquery.Cache.Freshness

/-!
# Which requests share a cache key

The key of a request is its fields one below the other, with the query parameters written out as
`name=value` and joined by `&`. The parameters have been decoded before, so that a name or a value may
itself hold `&` and `=`, and two different maps of parameters may be written out alike. A request is
then served what was stored for another.

Against all other requests, a request is safe exactly if its parameters are written with at most one
`=`: then there is only one way to read them back. Among requests whose names are free of `&` and `=`
and whose values are free of `&`, all are safe. Both hold for requests that fit on their lines; a
newline in a field moves everything below it.
-/

set_option autoImplicit false

namespace Hlquery.Cache

open Bytes History ResponseCache

/-! ## Who has stored what is served -/

section Storers

variable (platform : Platform)

/-- The request whose `Put` stored last under each key, beside the history. -/
def storersStep (state : History × ByteMap CachedRequest) (operation : Operation) :
    History × ByteMap CachedRequest :=
  (state.1.step platform operation,
    match operation with
    | .put _ request collection response number =>
      match state.1.reads[number]? with
      | none => state.2
      | some read =>
        if state.1.cache.accepts collection response read.generation then
          state.2.insert (buildKey platform request) request
        else state.2
    | _ => state.2)

def storers (operations : List Operation) : History × ByteMap CachedRequest :=
  operations.foldl (storersStep platform) (.start, ∅)

/-- The cache can answer a request with the response stored for another: after some interleaving of
its operations `Get` finds an entry, and the other request's `Put` has stored it. -/
def Serves (request stored : CachedRequest) : Prop :=
  ∃ (operations : List Operation) (now : Nat) (collection : Bytes) (response : HttpResponse),
    ((run platform operations).cache.get now (buildKey platform request) collection).2 =
      some response ∧
    (storers platform operations).2[buildKey platform request]? = some stored

theorem storersStep_key {state : History × ByteMap CachedRequest} (operation : Operation)
    (h : ∀ key stored, state.2[key]? = some stored → buildKey platform stored = key)
    (key : Bytes) (stored : CachedRequest)
    (hk : (storersStep platform state operation).2[key]? = some stored) :
    buildKey platform stored = key := by
  cases operation with
  | put now request collection response number =>
    simp only [storersStep] at hk
    split at hk
    · exact h key stored hk
    split at hk
    · exact ByteMap.forall_insert h rfl key stored hk
    · exact h key stored hk
  | _ => exact h key stored hk

theorem storers_key : ∀ (operations : List Operation) (state : History × ByteMap CachedRequest),
    (∀ key stored, state.2[key]? = some stored → buildKey platform stored = key) →
    ∀ key stored, (operations.foldl (storersStep platform) state).2[key]? = some stored →
      buildKey platform stored = key
  | [], _, h => h
  | operation :: operations, _, h =>
    storers_key operations _ (storersStep_key platform operation h)

theorem buildKey_of_serves {request stored : CachedRequest} (h : Serves platform request stored) :
    buildKey platform stored = buildKey platform request := by
  obtain ⟨operations, -, -, -, -, hstored⟩ := h
  refine storers_key platform operations (.start, ∅) (fun key stored h => ?_) _ _ hstored
  cases h

def okResponse : HttpResponse := ⟨200, lit "OK", ∅, []⟩

theorem get_of_put {c : ResponseCache} {key : Bytes} {generation : Nat}
    (haccepts : c.accepts [] okResponse generation = true) (hempty : c.entries = ∅)
    (horder : c.entryOrder = []) (hsize : c.sizeBytes = 0)
    (httl : 0 < c.ttlMS)
    (hroom : estimateEntrySize platform key (okResponse.marked (lit "stored")) ≤ c.maxSizeBytes) :
    ∃ response, ((c.put platform 0 key [] okResponse generation).get 0 key []).2 =
      some response := by
  have hnone : c.entries[key]? = none := by rw [hempty]; simp
  have hfits : ¬c.maxSizeBytes <
      (0 + estimateEntrySize platform key (okResponse.marked (lit "stored"))) % 2 ^ 64 := by
    omega
  simp only [ResponseCache.put, haccepts, if_true, removeKeyLocked, hnone, trimLocked, horder,
    List.nil_append, trimLoop, hsize, hfits, if_false, compactOrderLocked, List.length_singleton]
  rw [if_pos (by omega)]
  unfold ResponseCache.get
  rw [ByteMap.get_insert, if_pos rfl]
  dsimp only
  rw [if_neg (by
    simp only [currentGenerationLocked, CacheEntry.isExpired]
    simpa using Nat.ne_of_gt httl)]
  exact ⟨_, rfl⟩

/-- A cache with room for the entry reads a generation and stores an answer. -/
def storing (request : CachedRequest) : List Operation :=
  [.configure 1 (estimateEntrySize platform (buildKey platform request)
      (okResponse.marked (lit "stored"))),
    .getGeneration [], .put 0 request [] okResponse 0]

/-- **Requests with one key are served each other's responses.** -/
theorem serves_of_buildKey {request stored : CachedRequest}
    (h : buildKey platform stored = buildKey platform request) :
    Serves platform request stored := by
  -- the cache in front of the `Put`
  let ready := ResponseCache.initial.configure 1
    (estimateEntrySize platform (buildKey platform stored) (okResponse.marked (lit "stored")))
  have haccepts : ready.accepts [] okResponse (ready.getGeneration []) = true := by
    simp [accepts, getGeneration, okResponse]
  have hrun : (run platform (storing platform stored)).cache =
      ready.put platform 0 (buildKey platform stored) [] okResponse (ready.getGeneration []) := rfl
  obtain ⟨response, hget⟩ := get_of_put platform haccepts rfl rfl rfl Nat.one_pos
    (Nat.le_max_right 1 _)
  refine ⟨storing platform stored, 0, [], response, ?_, ?_⟩
  · rw [hrun, ← h]
    exact hget
  · have hstorers : (storers platform (storing platform stored)).2 =
        if ready.accepts [] okResponse (ready.getGeneration []) = true then
          (∅ : ByteMap CachedRequest).insert (buildKey platform stored) stored else ∅ := rfl
    rw [hstorers, if_pos haccepts, ByteMap.get_insert, if_pos h.symm]

end Storers

/-! ## The fields on their lines -/

def keyFields (platform : Platform) (request : CachedRequest) : List Bytes :=
  [request.cacheNamespace, request.method, request.path, canonicalParams request.queryParams,
    canonicalBody platform request.body, request.embeddedFilters, request.apiKeyId]

theorem buildKey_eq (platform : Platform) (request : CachedRequest) :
    buildKey platform request = [chr '\n'].intercalate (keyFields platform request) := by
  simp [buildKey, keyFields, List.intercalate, List.intersperse, lit, chr]

def OnLines (platform : Platform) (request : CachedRequest) : Prop :=
  ∀ field ∈ keyFields platform request, chr '\n' ∉ field

variable {params : ByteMap Bytes} {platform : Platform} {params' : ByteMap Bytes}

/-- **A request on its lines shares its key with requests of the same fields only.** -/
theorem keyFields_of_buildKey {request stored : CachedRequest} (hlines : OnLines platform request)
    (h : buildKey platform stored = buildKey platform request) :
    keyFields platform stored = keyFields platform request := by
  rw [buildKey_eq, buildKey_eq] at h
  exact intercalate_inj_of_length hlines rfl h

/-! ## Parameters -/

def writtenParam (entry : Bytes × Bytes) : Bytes := entry.1 ++ chr '=' :: entry.2

theorem foldl_params : ∀ (entries : List (Bytes × Bytes)) (result : Bytes), result ≠ [] →
    entries.foldl (fun result entry =>
      (if result = [] then result else result ++ lit "&") ++ entry.1 ++ lit "=" ++ entry.2) result =
      [chr '&'].intercalate (result :: entries.map writtenParam)
  | [], result, _ => by simp [List.intercalate]
  | entry :: entries, result, hne => by
    rw [List.foldl_cons, if_neg hne, foldl_params entries _ (by simp [hne])]
    cases entries <;> simp [List.intercalate, writtenParam, lit, chr]

theorem canonicalParams_eq (params : ByteMap Bytes) :
    canonicalParams params = [chr '&'].intercalate (params.toList.map writtenParam) := by
  unfold canonicalParams
  cases params.toList with
  | nil => simp [List.intercalate]
  | cons entry entries =>
    rw [List.foldl_cons, if_pos rfl, foldl_params entries _ (by simp [lit])]
    simp [writtenParam, lit, chr]

theorem canonicalParams_singleton (name value : Bytes) :
    canonicalParams ((∅ : ByteMap Bytes).insert name value) = name ++ chr '=' :: value := by
  have hlist : ((∅ : ByteMap Bytes).insert name value).toList = [(name, value)] := by
    have hsize : ((∅ : ByteMap Bytes).insert name value).toList.length = 1 := by
      rw [Std.ExtTreeMap.length_toList, Std.ExtTreeMap.size_insert]
      simp
    obtain ⟨entry, hentry⟩ := List.length_eq_one_iff.mp hsize
    have hmem : (name, value) ∈ ((∅ : ByteMap Bytes).insert name value).toList := by
      rw [Std.ExtTreeMap.mem_toList_iff_getElem?_eq_some, ByteMap.get_insert, if_pos rfl]
    rw [hentry] at hmem ⊢
    rw [List.mem_singleton.mp hmem]
  rw [canonicalParams_eq, hlist]
  simp [List.intercalate, writtenParam]

theorem eq_of_toList (h : params'.toList = params.toList) : params' = params := by
  refine Std.ExtTreeMap.ext_getElem? fun name => Option.ext fun value => ?_
  rw [← Std.ExtTreeMap.mem_toList_iff_getElem?_eq_some, h,
    Std.ExtTreeMap.mem_toList_iff_getElem?_eq_some]

theorem length_params_le (params : ByteMap Bytes) :
    params.toList.length ≤ (canonicalParams params).count (chr '=') := by
  rw [canonicalParams_eq, ← List.length_map writtenParam]
  refine length_le_count_intercalate _ fun l hl => ?_
  obtain ⟨entry, -, rfl⟩ := List.mem_map.mp hl
  simp [writtenParam]

theorem canonicalParams_eq_nil (h : canonicalParams params = []) : params.toList = [] := by
  have hlength := length_params_le params
  rw [h] at hlength
  exact List.length_eq_zero_iff.mp (Nat.le_zero.mp hlength)

/-- A parameter is cut at its `=` in one way, if its name has none. -/
theorem writtenParam_inj {entry entry' : Bytes × Bytes} (h : chr '=' ∉ entry.1)
    (h' : chr '=' ∉ entry'.1) (hwritten : writtenParam entry' = writtenParam entry) :
    entry' = entry := by
  obtain ⟨hname, hvalue⟩ := append_cons_inj h' h hwritten
  exact Prod.ext hname hvalue

/-- **Parameters written with at most one `=` can be read back.** -/
theorem params_of_one_equals (hone : (canonicalParams params).count (chr '=') ≤ 1)
    (h : canonicalParams params' = canonicalParams params) : params' = params := by
  refine eq_of_toList ?_
  have hlength := (length_params_le params).trans hone
  have hlength' := (length_params_le params').trans (h ▸ hone)
  cases hl : params.toList with
  | nil =>
    refine canonicalParams_eq_nil (h.trans ?_)
    rw [canonicalParams_eq, hl]
    simp [List.intercalate]
  | cons entry entries =>
    obtain rfl : entries = [] := List.length_eq_zero_iff.mp (by simpa [hl] using hlength)
    have hwritten : canonicalParams params = writtenParam entry := by
      simp [canonicalParams_eq, hl, List.intercalate]
    cases hl' : params'.toList with
    | nil =>
      have hnil : canonicalParams params' = [] := by simp [canonicalParams_eq, hl', List.intercalate]
      rw [hnil, hwritten] at h
      exact absurd h.symm (by simp [writtenParam])
    | cons entry' entries' =>
      obtain rfl : entries' = [] := List.length_eq_zero_iff.mp (by simpa [hl'] using hlength')
      have hwritten' : canonicalParams params' = writtenParam entry' := by
        simp [canonicalParams_eq, hl', List.intercalate]
      -- the only `=` is the one behind the name
      have hname : ∀ e : Bytes × Bytes, (writtenParam e).count (chr '=') ≤ 1 → chr '=' ∉ e.1 := by
        intro e he
        rw [writtenParam, List.count_append, List.count_cons_self] at he
        exact List.count_eq_zero.mp (by omega)
      rw [writtenParam_inj (hname entry (hwritten ▸ hone)) (hname entry' (hwritten' ▸ h ▸ hone))
        (by rw [← hwritten', ← hwritten, h])]

/-- **A second `=` can be taken for the one behind the name.** -/
theorem exists_params_of_equals (h : 1 < (canonicalParams params).count (chr '=')) :
    ∃ params', params' ≠ params ∧ canonicalParams params' = canonicalParams params := by
  obtain ⟨a, r, hr, ha⟩ := List.eq_append_cons_of_mem (List.count_pos_iff.mp (Nat.lt_of_succ_lt h))
  have hmore : chr '=' ∈ r := by
    rw [hr, List.count_append, List.count_eq_zero.mpr ha, List.count_cons_self] at h
    exact List.count_pos_iff.mp (by omega)
  obtain ⟨b, c, rfl⟩ := List.append_of_mem hmore
  by_cases hfirst : (∅ : ByteMap Bytes).insert a (b ++ chr '=' :: c) = params
  · refine ⟨(∅ : ByteMap Bytes).insert (a ++ chr '=' :: b) c, fun hsecond => ?_, ?_⟩
    · have hget := congrArg (fun m : ByteMap Bytes => m[a]?) (hfirst.trans hsecond.symm)
      simp only [ByteMap.get_insert, if_true] at hget
      rw [if_neg (by simp)] at hget
      cases hget
    · rw [canonicalParams_singleton, hr]
      simp
  · exact ⟨_, hfirst, by rw [canonicalParams_singleton, hr]⟩

/-- Names and values that cannot be taken for more than one parameter. -/
def PlainParams (params : ByteMap Bytes) : Prop :=
  ∀ entry ∈ params.toList, chr '&' ∉ entry.1 ∧ chr '=' ∉ entry.1 ∧ chr '&' ∉ entry.2

theorem map_writtenParam_inj : ∀ {entries entries' : List (Bytes × Bytes)},
    (∀ entry ∈ entries, chr '=' ∉ entry.1) → (∀ entry ∈ entries', chr '=' ∉ entry.1) →
    entries'.map writtenParam = entries.map writtenParam → entries' = entries
  | [], [], _, _, _ => rfl
  | [], _ :: _, _, _, h => nomatch h
  | _ :: _, [], _, _, h => nomatch h
  | entry :: entries, entry' :: entries', hn, hn', h => by
    simp only [List.map_cons, List.cons.injEq] at h
    rw [writtenParam_inj (hn entry (by simp)) (hn' entry' (by simp)) h.1,
      map_writtenParam_inj (fun e he => hn e (List.mem_cons_of_mem _ he))
        (fun e he => hn' e (List.mem_cons_of_mem _ he)) h.2]

/-- **Plain parameters can be read back**, if it is known that they are plain. -/
theorem params_of_plain (hplain : PlainParams params) (hplain' : PlainParams params')
    (h : canonicalParams params' = canonicalParams params) : params' = params := by
  have hfree : ∀ {params : ByteMap Bytes}, PlainParams params →
      ∀ l ∈ params.toList.map writtenParam, chr '&' ∉ l := by
    intro params hp l hl
    obtain ⟨entry, hentry, rfl⟩ := List.mem_map.mp hl
    obtain ⟨hname, -, hvalue⟩ := hp entry hentry
    simp only [writtenParam, List.mem_append, List.mem_cons, not_or]
    exact ⟨hname, by decide, hvalue⟩
  refine eq_of_toList ?_
  refine map_writtenParam_inj (fun e he => (hplain e he).2.1) (fun e he => (hplain' e he).2.1) ?_
  have hnil : ∀ {params : ByteMap Bytes}, params.toList = [] → canonicalParams params = [] := by
    intro params hp
    simp [canonicalParams_eq, hp, List.intercalate]
  cases hl : params.toList with
  | nil => rw [canonicalParams_eq_nil (h.trans (hnil hl))]
  | cons entry entries =>
    cases hl' : params'.toList with
    | nil =>
      have := canonicalParams_eq_nil (h.symm.trans (hnil hl'))
      exact absurd (hl.symm.trans this) (by simp)
    | cons entry' entries' =>
      rw [canonicalParams_eq, canonicalParams_eq, hl, hl'] at h
      have hentries := hfree hplain
      have hentries' := hfree hplain'
      rw [hl] at hentries
      rw [hl'] at hentries'
      exact intercalate_inj hentries' hentries h

/-! ## Bodies -/

/-- What is used of the JSON library: the empty text is no JSON, and the dump of a value is a JSON
text. -/
structure JsonLaws (platform : Platform) : Prop where
  empty : platform.parseDump [] = none
  dump : ∀ {body dumped : Bytes}, platform.parseDump body = some dumped →
    dumped ≠ [] ∧ (platform.parseDump dumped).isSome

/-- The same JSON value, which its dump stands for, or the same bytes where they are no JSON. -/
def SameBody (platform : Platform) (body body' : Bytes) : Prop :=
  match platform.parseDump body, platform.parseDump body' with
  | some dumped, some dumped' => dumped = dumped'
  | none, none => body = body'
  | _, _ => False

theorem canonicalBody_eq (laws : JsonLaws platform) (body : Bytes) :
    canonicalBody platform body = (platform.parseDump body).getD body := by
  unfold canonicalBody
  split_ifs with hempty
  · rw [hempty, laws.empty]
    rfl
  · rfl

theorem sameBody_of_canonicalBody (laws : JsonLaws platform) {body body' : Bytes}
    (h : canonicalBody platform body = canonicalBody platform body') :
    SameBody platform body body' := by
  rw [canonicalBody_eq laws, canonicalBody_eq laws] at h
  unfold SameBody
  cases hd : platform.parseDump body with
  | some dumped =>
    cases hd' : platform.parseDump body' with
    | some dumped' => simpa [hd, hd'] using h
    | none =>
      have hbody : dumped = body' := by simpa [hd, hd'] using h
      have hsome := (laws.dump hd).2
      rw [hbody, hd'] at hsome
      cases hsome
  | none =>
    cases hd' : platform.parseDump body' with
    | some dumped' =>
      have hbody : body = dumped' := by simpa [hd, hd'] using h
      have hsome := (laws.dump hd').2
      rw [← hbody, hd] at hsome
      cases hsome
    | none => simpa [hd, hd'] using h

/-! ## Requests -/

/-- The requests agree in all that an answer may depend on. -/
def SameRequest (platform : Platform) (request stored : CachedRequest) : Prop :=
  request.method = stored.method ∧ request.path = stored.path ∧
    request.queryParams = stored.queryParams ∧ SameBody platform request.body stored.body ∧
    request.embeddedFilters = stored.embeddedFilters ∧ request.apiKeyId = stored.apiKeyId

/-- Below their parameters, requests with one key agree. -/
theorem sameRequest_of_params (laws : JsonLaws platform) {request stored : CachedRequest}
    (h : keyFields platform stored = keyFields platform request)
    (hparams : stored.queryParams = request.queryParams) : SameRequest platform request stored := by
  simp only [keyFields, List.cons.injEq, and_true] at h
  obtain ⟨-, hmethod, hpath, -, hbody, hfilters, hkey⟩ := h
  exact ⟨hmethod.symm, hpath.symm, hparams.symm, sameBody_of_canonicalBody laws hbody.symm,
    hfilters.symm, hkey.symm⟩

/-- **Whose responses a request is served.** For a request on its lines: it is served responses of
the same request only, whatever the other is, exactly if its parameters are written with at most one
`=`; and if its parameters are plain, then among all requests with plain parameters it is served
those of the same request only. -/
theorem served_same_request_iff {platform : Platform} (laws : JsonLaws platform)
    {request : CachedRequest} (hlines : OnLines platform request) :
    ((∀ stored, Serves platform request stored → SameRequest platform request stored) ↔
      (canonicalParams request.queryParams).count (chr '=') ≤ 1) ∧
    (PlainParams request.queryParams → ∀ stored, PlainParams stored.queryParams →
      Serves platform request stored → SameRequest platform request stored) := by
  have hfields : ∀ {stored}, Serves platform request stored →
      keyFields platform stored = keyFields platform request :=
    fun h => keyFields_of_buildKey hlines (buildKey_of_serves platform h)
  have hparams : ∀ {stored}, Serves platform request stored →
      canonicalParams stored.queryParams = canonicalParams request.queryParams := by
    intro stored h
    have := hfields h
    simp only [keyFields, List.cons.injEq, and_true] at this
    exact this.2.2.2.1
  refine ⟨⟨fun hsafe => ?_, fun hone stored hserves => ?_⟩, fun hplain stored hplain' hserves => ?_⟩
  · by_contra hmore
    obtain ⟨params, hne, hsame⟩ := exists_params_of_equals (Nat.lt_of_not_le hmore)
    have hkey : buildKey platform { request with queryParams := params } =
        buildKey platform request := by
      simp [buildKey, hsame]
    exact hne (hsafe _ (serves_of_buildKey platform hkey)).2.2.1.symm
  · exact sameRequest_of_params laws (hfields hserves) (params_of_one_equals hone (hparams hserves))
  · exact sameRequest_of_params laws (hfields hserves)
      (params_of_plain hplain hplain' (hparams hserves))

theorem jsonLaws_barePlatform : JsonLaws barePlatform :=
  ⟨rfl, fun h => absurd h (by simp [barePlatform])⟩

theorem served_same_request_plainRequest : ((∀ stored, Serves barePlatform plainRequest stored →
        SameRequest barePlatform plainRequest stored) ↔
      (canonicalParams plainRequest.queryParams).count (chr '=') ≤ 1) ∧
    (PlainParams plainRequest.queryParams → ∀ stored, PlainParams stored.queryParams →
      Serves barePlatform plainRequest stored → SameRequest barePlatform plainRequest stored) := by
  refine served_same_request_iff jsonLaws_barePlatform ?_
  unfold OnLines
  decide +kernel

def filteredSearch : CachedRequest :=
  { plainRequest with
    queryParams := ((∅ : ByteMap Bytes).insert (lit "filter_by") (lit "a:1")).insert (lit "q")
      (lit "x") }

/-- A search with one parameter, whose value was sent as `a:1%26q%3Dx`. -/
def encodedSearch : CachedRequest :=
  { plainRequest with
    queryParams := (∅ : ByteMap Bytes).insert (lit "filter_by") (lit "a:1&q=x") }

theorem encoded_parameter_served : Serves barePlatform encodedSearch filteredSearch ∧
      ¬SameRequest barePlatform encodedSearch filteredSearch := by
  constructor
  · exact serves_of_buildKey barePlatform (by decide +kernel)
  intro h
  have hget := congrArg (fun params : ByteMap Bytes => params[lit "q"]?) h.2.2.1
  exact absurd hget (by decide +kernel)

end Hlquery.Cache
