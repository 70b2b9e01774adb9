import Hlquery.Http.Agreement

/-!
# The handler that runs and the action that was authorized

`Http.Agreement` compares the path dispatcher with the resolver below `/collections/`. Here the other
routes follow, and the theorem for all requests: the handler that runs is the one of the resolved
action exactly for the requests of `routedAsResolved`.
-/

set_option autoImplicit false

namespace Hlquery.Http

open Bytes

/-! ## Where an action comes from -/

variable {p : Bytes} {method : Method} {n pre : Bytes} {route : ExactRoute} {sets : List Bytes}

/-- An action comes from an exact path, or from a rule when there is no exact path. -/
theorem resolveHttpRoute_cases (h : resolveHttpRoute method p ≠ .notFound) :
    (∃ route ∈ exactRoutes, route.action = resolveHttpRoute method p ∧ method ∈ route.methods ∧
      normalizePath p ∈ route.paths) ∨
    (resolveExactRoute (normalizePath p) method = .notFound ∧
      ∃ rule ∈ routeRules, rule.action = resolveHttpRoute method p ∧ method ∈ rule.methods ∧
        rule.test (normalizePath p) = true) := by
  unfold resolveHttpRoute at h ⊢
  simp only at h ⊢
  cases hexact : resolveExactRoute (normalizePath p) method with
  | notFound =>
    right
    rw [hexact] at h
    simp only at h ⊢
    refine ⟨trivial, ?_⟩
    cases hrule : routeRules.find? fun r => r.methods.contains method && r.test (normalizePath p) with
    | none =>
      rw [hrule] at h
      exact absurd rfl h
    | some rule =>
      have hfits := List.find?_some hrule
      simp only [Bool.and_eq_true, List.contains_iff_mem] at hfits
      exact ⟨rule, List.mem_of_find?_eq_some hrule, rfl, hfits.1, hfits.2⟩
  | _ =>
    left
    unfold resolveExactRoute at hexact
    split at hexact
    · rename_i route hroute
      have hfits := List.find?_some hroute
      simp only [Bool.and_eq_true, List.contains_iff_mem] at hfits
      exact ⟨route, List.mem_reverse.mp (List.mem_of_find?_eq_some hroute), hexact, hfits.1, hfits.2⟩
    · cases hexact

def RouteFacts (action : RouteAction) (n : Bytes) : Prop :=
  match action with
  | .getUser | .updateUser | .deleteUser => startsWith n (lit "/users/") = true
  | .getKey | .updateKey | .deleteKey => startsWith n (lit "/keys/") = true
  | .upsertPreset | .getPreset | .deletePreset => startsWith n (lit "/presets/") = true
  | .upsertAlias | .getAlias | .deleteAlias => startsWith n (lit "/aliases/") = true
  | .upsertGlobalSynonym | .getGlobalSynonym | .deleteGlobalSynonym =>
      globalItem synonymSets n = true
  | .deleteGlobalStopword => globalItem stopwordSets n = true
  | .getModuleSyntax | .moduleAPI => startsWith n (lit "/modules/") = true
  | .moduleLoad | .moduleUnload | .notFound => True
  | action => inCollections n = true ∧ PathFacts action n

theorem startsWith_of_prefixRoute (h : prefixRoute pre n = true) : startsWith n pre = true := by
  unfold prefixRoute at h
  rw [Bool.and_eq_true] at h
  exact h.1

theorem startsWith_of_singleChild (h : singleChildRoute pre n = true) :
    startsWith n pre = true := by
  unfold singleChildRoute at h
  rw [Bool.and_eq_true] at h
  exact startsWith_of_prefixRoute h.1

theorem globalItem_of_singleChild (hpre : pre ∈ sets) (h : singleChildRoute pre n = true) :
    globalItem sets n = true :=
  List.any_eq_true.mpr ⟨pre, hpre, startsWith_of_singleChild h⟩

theorem globalItem_of_item (pre item : Bytes) (hpre : pre ∈ sets)
    (h : isGlobalItem (pre ++ item) n = true) : globalItem sets n = true := by
  unfold isGlobalItem at h
  rw [Bool.and_eq_true] at h
  obtain ⟨t, ht⟩ := startsWith_iff.mp (startsWith_of_prefixRoute h.1)
  exact List.any_eq_true.mpr ⟨pre, hpre, startsWith_iff.mpr ⟨item ++ t, by simp [ht]⟩⟩

theorem startsWith_of_moduleSyntax (h : isModuleSyntax n = true) :
    startsWith n (lit "/modules/") = true := by
  unfold isModuleSyntax at h
  rw [Bool.and_eq_true] at h
  exact startsWith_of_prefixRoute h.1

theorem inCollections_of_root (h : isCollectionRoot n = true) : inCollections n = true := by
  refine (inCollections_of_segments ?_).1
  intro hnil
  simp [isCollectionRoot, hnil] at h

theorem has_documents_of_word (h : isCollectionWord [lit "documents"] n = true) :
    inCollections n = true ∧ has n "/documents" = true :=
  have hword := has_word (lit "lang") h (by decide) (by decide) (by decide)
  ⟨hword.1, hword.2.1⟩

/-- Rule by rule, whatever their order. -/
theorem routeFacts : ∀ rule ∈ routeRules, ∀ n, rule.test n = true → RouteFacts rule.action n := by
  repeat' first
    | exact List.forall_mem_nil _
    | refine List.forall_mem_cons.mpr ⟨?_, ?_⟩
  all_goals
    intro n h
    first
    | trivial
    | exact startsWith_of_singleChild h
    | exact startsWith_of_moduleSyntax h
    | exact startsWith_of_prefixRoute h
    | exact globalItem_of_singleChild (by decide) h
    | exact globalItem_of_item (lit "/synonym_sets/global/") (lit "items/") (by decide) h
    | exact globalItem_of_item (lit "/stopword_sets/global/") (lit "items/") (by decide) h
    | exact ⟨(isCollectionWord_segments h).1, trivial⟩
    | exact ⟨(isCollectionChild_segments h).1, trivial⟩
    | exact ⟨inCollections_of_root h, trivial⟩
    | exact has_context h
    | exact has_documents_of_operation h
    | exact ⟨(has_documents_of_operation h).1, trivial⟩
    | exact has_documents_of_document h
    | exact has_documents_of_word h
    | exact has_word (lit "search") h (by decide) (by decide) (by decide)
    | exact has_word (lit "lang") h (by decide) (by decide) (by decide)

/-! ## Routes with a prefix of their own -/

def dispatchOn (method : Method) (p n : Bytes) : Option Handler :=
  ((pathRules.find? fun rule => rule.methods.contains method && rule.test p n).map
    PathRule.handler).or
    ((accountRules.find? fun rule => rule.methods.contains method && rule.test p n).map
      PathRule.handler)

theorem dispatchPath_eq_dispatchOn (method : Method) (p : Bytes) :
    dispatchPath method p = dispatchOn method p (normalizePath p) := rfl

/-- Below a prefix of its own, an action's handler is the only one. -/
theorem dispatchPath_of_prefix {handler : Handler}
    (h : ∀ t t', dispatchOn method (pre ++ t) (pre ++ t') = some handler)
    (hn : startsWith (normalizePath p) pre = true) : dispatchPath method p = some handler := by
  obtain ⟨t', ht'⟩ := startsWith_iff.mp hn
  obtain ⟨t, ht⟩ := startsWith_iff.mp (startsWith_of_normalized hn)
  rw [dispatchPath_eq_dispatchOn, ht', ht]
  exact h t t'

theorem firstHandler_module (hp : startsWith p (lit "/modules/") = true) :
    firstHandler pathRules .get p =
      firstTrue [(endsWith (normalizePath p) (lit "/syntax"), .moduleSyntax), (true, .moduleAPI)] := by
  obtain ⟨t, rfl⟩ := startsWith_iff.mp hp
  repeat' first
    | refine firstHandler_skipMethod rfl ?_
    | refine firstHandler_skipTest rfl ?_
    | refine firstHandler_next rfl rfl ?_
  rfl

theorem dispatchPath_module (hm : method ∈ [Method.get, .post, .put, .delete, .patch])
    (hn : startsWith (normalizePath p) (lit "/modules/") = true) :
    dispatchPath method p =
      if method = .get ∧ endsWith (normalizePath p) (lit "/syntax") = true then some .moduleSyntax
      else some .moduleAPI := by
  have hp := startsWith_of_normalized hn
  simp only [List.mem_cons, List.not_mem_nil, or_false] at hm
  rcases hm with rfl | rfl | rfl | rfl | rfl
  · unfold dispatchPath
    rw [firstHandler_module hp, firstTrue, firstTrue]
    cases endsWith (normalizePath p) (lit "/syntax") <;> rfl
  all_goals exact dispatchPath_of_prefix (fun _ _ => rfl) hn

/-! ## Routes with exact paths -/

/-- The actions with exact paths that the path dispatcher compares with the path as sent. -/
def exactActions : List RouteAction :=
  [.status, .searchConfig, .configFiles, .health, .ready, .stats, .metrics, .docTotal,
    .updateCounters, .repair, .storageStatus, .storageDiagnostics, .durabilityBarrier,
    .listCollections, .listCollectionsDistributed, .createCollection, .documentSearch, .multiSearch,
    .globalSearch, .listAllSynonyms, .listGlobalSynonyms, .listAllStopwords, .listGlobalStopwords,
    .createGlobalStopword, .listAliases, .linksList, .linksPing, .linksConnect, .linksDisconnect,
    .listModules]

def exactPaths (handler : Handler) : List Bytes :=
  (exactRoutes.filter fun route => dispatchResolvedRoute route.action = some handler).flatMap
    ExactRoute.paths

/-- The rules with such a handler compare the path, but for two handlers that also serve paths below
`/collections/`. -/
theorem exactPaths_of_rule : ∀ rule ∈ pathRules ++ accountRules, ∀ p n, rule.test p n = true →
    some rule.handler ∈ exactActions.map dispatchResolvedRoute →
    p ∈ exactPaths rule.handler ∨
      inCollections p = true ∧ rule.handler ∈ [Handler.search, .listAliases] := by
  unfold pathRules accountRules
  repeat' first
    | exact List.forall_mem_nil _
    | refine List.forall_mem_cons.mpr ⟨?_, ?_⟩
  all_goals
    intro p n htest hexact
    first
    | exact absurd hexact (by decide)
    | (simp only [Bool.or_eq_true, beq_iff_eq] at htest
       rcases htest with rfl | rfl
       · exact .inl (by decide)
       · exact .inl (by decide))
    | (simp only [beq_iff_eq] at htest
       subst htest
       exact .inl (by decide))
    | (simp only [Bool.and_eq_true] at htest
       exact .inr ⟨by simp [htest], by decide⟩)

theorem exists_rule_of_dispatchPath {handler : Handler} (h : dispatchPath method p = some handler) :
    ∃ rule ∈ pathRules ++ accountRules,
      rule.handler = handler ∧ rule.test p (normalizePath p) = true := by
  rcases Option.or_eq_some_iff.mp h with h | ⟨-, h⟩
  · obtain ⟨rule, hmem, hrule⟩ := exists_rule_of_firstHandler h
    exact ⟨rule, List.mem_append_left _ hmem, hrule⟩
  · obtain ⟨rule, hmem, hrule⟩ := exists_rule_of_firstHandler h
    exact ⟨rule, List.mem_append_right _ hmem, hrule⟩

/-- The table of exact paths, row by row: the paths are normalized, the path dispatcher runs the
handler of the action, and the paths of the two handlers that also serve collections. -/
theorem exactRoutes_rows : ∀ route ∈ exactRoutes, (∀ w ∈ route.paths, normalizePath w = w) ∧
    (route.action ∈ exactActions → ∀ method ∈ route.methods, ∀ w ∈ route.paths,
      dispatchPath method w = dispatchResolvedRoute route.action) ∧
    (dispatchResolvedRoute route.action ∈ [some Handler.search, some .listAliases] →
      ∀ w ∈ route.paths, w = lit "/sql" ∨ w = lit "/aliases") ∧
    (route.action = .documentSearch → ∀ w ∈ route.paths, w = lit "/sql") ∧
    (route.action = .listAliases → ∀ w ∈ route.paths, w = lit "/aliases") := by
  decide +kernel

theorem not_inCollections_exact (hr : route ∈ exactRoutes)
    (hh : dispatchResolvedRoute route.action ∈ [some Handler.search, some .listAliases])
    (hn : normalizePath p ∈ route.paths) : inCollections p = false := by
  obtain ⟨-, -, hpaths, -⟩ := exactRoutes_rows route hr
  obtain ⟨t, ht⟩ := startsWith_normalizePath p
  rcases hpaths hh _ hn with hw | hw
  all_goals
    rw [hw] at ht
    rw [← ht]
    rfl

theorem agreement_exact : ∀ action ∈ exactActions,
    action ∈ [RouteAction.documentSearch, .listAliases] ∨
      ∀ method p n, agreement action method p n = (p == n) := by
  repeat' first
    | exact List.forall_mem_nil _
    | refine List.forall_mem_cons.mpr ⟨?_, ?_⟩
  all_goals
    first
    | exact .inl (by decide)
    | exact .inr fun _ _ _ => rfl

/-- For an exact path the condition is that the path was sent as it is. -/
theorem agreement_of_exactRoute (hr : route ∈ exactRoutes) (ha : route.action ∈ exactActions)
    (hn : normalizePath p ∈ route.paths) :
    agreement route.action method p (normalizePath p) = (p == normalizePath p) := by
  rcases agreement_exact route.action ha with hspecial | h
  · obtain ⟨-, -, -, hsql, haliases⟩ := exactRoutes_rows route hr
    simp only [List.mem_cons, List.not_mem_nil, or_false] at hspecial
    rcases hspecial with hs | hs
    · have hp := not_inCollections_exact hr (by rw [hs]; decide) hn
      rw [hs, hsql hs _ hn, agreement, hp]
      simp
    · have hp := not_inCollections_exact hr (by rw [hs]; decide) hn
      rw [hs, haliases hs _ hn, agreement, hp]
      simp
  · exact h ..

theorem exactRoute_agrees (hr : route ∈ exactRoutes) (hm : method ∈ route.methods)
    (ha : route.action ∈ exactActions) (hn : normalizePath p ∈ route.paths) :
    dispatchPath method p = dispatchResolvedRoute route.action ↔
      agreement route.action method p (normalizePath p) = true := by
  rw [agreement_of_exactRoute hr ha hn, beq_iff_eq]
  constructor
  · intro h
    have hsome : (dispatchResolvedRoute route.action).isSome = true := by
      have hall : ∀ action ∈ exactActions, (dispatchResolvedRoute action).isSome = true := by
        decide
      exact hall _ ha
    obtain ⟨handler, hh⟩ := Option.isSome_iff_exists.mp hsome
    rw [hh] at h
    obtain ⟨rule, hmem, rfl, htest⟩ := exists_rule_of_dispatchPath h
    rcases exactPaths_of_rule rule hmem p _ htest (List.mem_map.mpr ⟨_, ha, hh⟩) with hp | ⟨hp, hs⟩
    · obtain ⟨route', hroute', hw⟩ := List.mem_flatMap.mp hp
      exact ((exactRoutes_rows route' (List.mem_of_mem_filter hroute')).1 p hw).symm
    · have hspecial : dispatchResolvedRoute route.action ∈
          [some Handler.search, some .listAliases] := by
        rw [hh]
        simpa using hs
      rw [not_inCollections_exact hr hspecial hn] at hp
      cases hp
  · intro h
    rw [← h] at hn
    exact (exactRoutes_rows route hr).2.1 ha method hm p hn

/-- The lists of users, keys and presets: the second chain has no rule for their paths, whatever
follows in the path as sent. -/
theorem dispatchOn_account : ∀ route ∈ exactRoutes,
    route.action ∈ [RouteAction.listUsers, .createUser, .listKeys, .createKey, .listPresets] →
    ∀ method ∈ route.methods, ∀ w ∈ route.paths, ∀ t,
      dispatchOn method (w ++ t) w = dispatchResolvedRoute route.action := by
  repeat' first
    | exact List.forall_mem_nil _
    | refine List.forall_mem_cons.mpr ⟨?_, ?_⟩
  all_goals
    intro ha
    first
    | exact absurd ha (by decide)
    | (intro method hm w hw t
       rw [List.mem_singleton] at hm hw
       subst hm hw
       rfl)

theorem account_agrees (hr : route ∈ exactRoutes) (hm : method ∈ route.methods)
    (ha : route.action ∈ [RouteAction.listUsers, .createUser, .listKeys, .createKey, .listPresets])
    (hn : normalizePath p ∈ route.paths) :
    dispatchPath method p = dispatchResolvedRoute route.action := by
  obtain ⟨t, ht⟩ := startsWith_normalizePath p
  have hd := dispatchOn_account route hr ha method hm _ hn t
  rw [ht] at hd
  exact hd

/-! ## All requests -/

theorem dispatchPath_ne_moduleLoad (method : Method) (p : Bytes) :
    dispatchPath method p ≠ some .moduleLoad ∧ dispatchPath method p ≠ some .moduleUnload := by
  have hrules : ∀ rule ∈ pathRules ++ accountRules,
      rule.handler ≠ .moduleLoad ∧ rule.handler ≠ .moduleUnload := by decide
  constructor
  · intro h
    obtain ⟨rule, hmem, hh, -⟩ := exists_rule_of_dispatchPath h
    exact (hrules rule hmem).1 hh
  · intro h
    obtain ⟨rule, hmem, hh, -⟩ := exists_rule_of_dispatchPath h
    exact (hrules rule hmem).2 hh

theorem agreement_of_exactAction (hr : route ∈ exactRoutes) (hm : method ∈ route.methods)
    (hc : isCentrallyDispatched route.action = false) (hn : normalizePath p ∈ route.paths) :
    dispatchPath method p = dispatchResolvedRoute route.action ↔
      agreement route.action method p (normalizePath p) = true := by
  have hkinds : ∀ route ∈ exactRoutes, isCentrallyDispatched route.action = false →
      route.action ∈ exactActions ∨
      route.action ∈ [RouteAction.listUsers, .createUser, .listKeys, .createKey, .listPresets] ∨
      route.action ∈ [RouteAction.moduleLoad, .moduleUnload] := by decide
  rcases hkinds route hr hc with ha | ha | ha
  · exact exactRoute_agrees hr hm ha hn
  · rw [account_agrees hr hm ha hn]
    have hagree : agreement route.action method p (normalizePath p) = true := by
      generalize route.action = action at ha
      simp only [List.mem_cons, List.not_mem_nil, or_false] at ha
      rcases ha with rfl | rfl | rfl | rfl | rfl <;> rfl
    simp [hagree]
  · generalize route.action = action at ha
    have hmodule := dispatchPath_ne_moduleLoad method p
    simp only [List.mem_cons, List.not_mem_nil, or_false] at ha
    rcases ha with rfl | rfl
    · simpa [agreement, dispatchResolvedRoute] using hmodule.1
    · simpa [agreement, dispatchResolvedRoute] using hmodule.2

def ruleMethods (action : RouteAction) : List Method :=
  (routeRules.filter fun rule => rule.action = action).flatMap RouteRule.methods

/-- A family of actions with a prefix of its own, or one of several. -/
theorem prefix_agrees {action : RouteAction} (hm : method ∈ ruleMethods action)
    (hn : globalItem sets (normalizePath p) = true)
    (h : ∀ method ∈ ruleMethods action, ∀ pre ∈ sets, ∀ t t',
      dispatchOn method (pre ++ t) (pre ++ t') = dispatchResolvedRoute action)
    (ha : agreement action method p (normalizePath p) = true) :
    dispatchPath method p = dispatchResolvedRoute action ↔
      agreement action method p (normalizePath p) = true := by
  obtain ⟨pre, hpre, hstart⟩ := List.any_eq_true.mp hn
  obtain ⟨t', ht'⟩ := startsWith_iff.mp hstart
  obtain ⟨t, ht⟩ := startsWith_iff.mp (startsWith_of_normalized hstart)
  have hd := h method hm pre hpre t t'
  rw [← ht, ← ht', ← dispatchPath_eq_dispatchOn] at hd
  simp [hd, ha]

theorem globalItem_singleton (h : startsWith n pre = true) : globalItem [pre] n = true := by
  simp [globalItem, h]

theorem rule_agrees {rule : RouteRule} (hr : rule ∈ routeRules) (hm : method ∈ rule.methods)
    (hfound : rule.action ≠ .notFound)
    (hexact : resolveExactRoute (normalizePath p) method = .notFound)
    (htest : rule.test (normalizePath p) = true) :
    dispatchPath method p = dispatchResolvedRoute rule.action ↔
      agreement rule.action method p (normalizePath p) = true := by
  have hfacts := routeFacts rule hr _ htest
  have hmethods : method ∈ ruleMethods rule.action :=
    List.mem_flatMap.mpr ⟨rule, List.mem_filter.mpr ⟨hr, by simp⟩, hm⟩
  have hcollection : inCollections (normalizePath p) = true ∧
      PathFacts rule.action (normalizePath p) → rule.action ∈ collectionActions method →
      (dispatchPath method p = dispatchResolvedRoute rule.action ↔
        agreement rule.action method p (normalizePath p) = true) := by
    intro hn ha
    have hpath := collectionPath hn.1
    rw [dispatchPath_collection hn.1 hpath.sent]
    refine collectionChain_agrees ha hpath hn.2 ?_
    rintro rfl
    rw [beq_eq_false_iff_ne]
    intro hp
    rw [hp] at hexact
    exact absurd hexact (by decide)
  generalize rule.action = action at *
  cases action
  case notFound => exact absurd rfl hfound
  case moduleLoad =>
    simpa [agreement, dispatchResolvedRoute] using (dispatchPath_ne_moduleLoad method p).1
  case moduleUnload =>
    simpa [agreement, dispatchResolvedRoute] using (dispatchPath_ne_moduleLoad method p).2
  case getUser | updateUser | deleteUser | getKey | updateKey | deleteKey | upsertPreset |
      getPreset | deletePreset | upsertAlias | getAlias | deleteAlias =>
    refine prefix_agrees hmethods (globalItem_singleton hfacts) ?_ rfl
    intro method hm pre hpre t t'
    obtain rfl := List.mem_singleton.mp hpre
    fin_cases hm <;> rfl
  case upsertGlobalSynonym | getGlobalSynonym | deleteGlobalSynonym | deleteGlobalStopword =>
    refine prefix_agrees hmethods hfacts ?_ rfl
    intro method hm pre hpre t t'
    fin_cases hm <;> fin_cases hpre <;> rfl
  case getModuleSyntax =>
    obtain rfl := List.mem_singleton.mp hmethods
    rw [dispatchPath_module (by decide) hfacts]
    cases hend : endsWith (normalizePath p) (lit "/syntax") <;>
      simp [agreement, dispatchResolvedRoute, hend]
  case moduleAPI =>
    rw [dispatchPath_module hmethods hfacts]
    cases hend : endsWith (normalizePath p) (lit "/syntax") <;> by_cases hget : method = .get <;>
      simp [agreement, dispatchResolvedRoute, hend, hget]
  all_goals
    refine hcollection hfacts ?_
    clear hcollection hexact hm
    revert method
    decide

/-- **The handler that runs is the one of the resolved action exactly when the path dispatcher is not
led astray**: `routedAsResolved` says for each action which words in the path do that. -/
theorem dispatch_eq_dispatchResolvedRoute_iff (method : Method) (path : Bytes) :
    dispatch method path = dispatchResolvedRoute (resolveHttpRoute method path) ↔
      routedAsResolved method path = true := by
  unfold dispatch routedAsResolved
  by_cases hfound : resolveHttpRoute method path = .notFound
  · rw [hfound]
    simp [dispatchResolvedRoute, agreement]
  · rw [if_neg hfound]
    cases hc : isCentrallyDispatched (resolveHttpRoute method path) with
    | true =>
      have hagree : ∀ action, isCentrallyDispatched action = true → ∀ n,
          agreement action method path n = true := by
        intro action ha n
        cases action <;> first | rfl | exact absurd ha (by decide)
      simp [hagree _ hc]
    | false =>
      rcases resolveHttpRoute_cases hfound with
        ⟨route, hr, ha, hm, hn⟩ | ⟨hexact, rule, hr, ha, hm, htest⟩
      · rw [← ha] at hc ⊢
        exact agreement_of_exactAction hr hm hc hn
      · rw [← ha] at hfound ⊢
        exact rule_agrees hr hm hfound hexact htest

/-- A request that deletes the documents of a query is authorized as such, and adds a document. -/
theorem deleteByQuery_adds_document :
    ¬ ∀ (method : Method) (path : Bytes), resolveHttpRoute method path ≠ .notFound →
        dispatch method path = dispatchResolvedRoute (resolveHttpRoute method path) := by
  intro h
  have hroute : resolveHttpRoute .post (lit "/collections/docs/documents/_delete_by_query") ≠
      .notFound ∧ dispatch .post (lit "/collections/docs/documents/_delete_by_query") ≠
        dispatchResolvedRoute
          (resolveHttpRoute .post (lit "/collections/docs/documents/_delete_by_query")) := by
    decide +kernel
  exact hroute.2 (h .post _ hroute.1)

end Hlquery.Http
