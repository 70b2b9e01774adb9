import Hlquery.Store.Refinement

/-!
# Runs of the segmented store

A run starts from the store that `Initialize` makes of an empty data directory and is a sequence
of calls that all report success; the rotations that the calls trigger are inside the calls. The
result is an equivalence. Along a run the store behaves like the plain map of documents in every
state **if and only if** each `ClearAllDocuments` happens at a moment when no live document belongs
to a collection whose name starts with the byte `0xff`.

The names that the HTTP interface accepts for a collection start with a letter or an underscore,
so a run that goes through it meets the condition; the storage class itself accepts any name.
-/

set_option autoImplicit false

namespace Hlquery.Store.SegmentManager

open Hlquery.Bytes

variable {env : Env} {m m' : SegmentManager}

/-- **One call** moves the represented map as the specification says. -/
theorem step_represented {docs : ByteMap Bytes} {op : Op} (h : m.Represented docs)
    (hlow : op = .clearAllDocuments → NoHighCollection docs) (hs : step env m op = some m') :
    m'.Represented (specStep docs op) := by
  have hdone := step_eq_some hs
  cases op with
  | setDocument key value =>
    obtain ⟨hkey, hwrite⟩ := hdone
    exact writeDocuments_represented (List.forall_mem_singleton.mpr hkey) h hwrite
  | batchSetDocuments keyValues =>
    rcases hdone with ⟨rfl, rfl⟩ | ⟨hkeys, hwrite⟩
    · exact h
    · exact writeDocuments_represented hkeys h hwrite
  | deleteDocument key =>
    obtain ⟨hone, rfl⟩ := hdone
    exact deleteDocument_represented h hone
  | deleteCollection collection =>
    obtain ⟨hfound, rfl⟩ := hdone
    exact deleteDocumentRange_represented h hfound
  | clearAllDocuments => exact clearAllDocuments_represented h (hlow rfl) hdone

/-! ## Prefixes of a run -/

theorem run_append (env : Env) (m : SegmentManager) (pre post : List Op) :
    run env m (pre ++ post) = (run env m pre).bind fun m' => run env m' post :=
  List.foldlM_append

theorem run_concat {pre : List Op} {op : Op} (h : run env m (pre ++ [op]) = some m') :
    ∃ m₁, run env m pre = some m₁ ∧ step env m₁ op = some m' := by
  rw [run_append] at h
  obtain ⟨m₁, h₁, h₂⟩ := Option.bind_eq_some_iff.mp h
  refine ⟨m₁, h₁, ?_⟩
  cases hs : step env m₁ op with
  | none => simp [run, hs] at h₂
  | some m₂ => simpa [run, hs] using h₂

theorem run_prefix {pre ops : List Op} (hp : pre <+: ops) (h : run env m ops = some m') :
    ∃ m₁, run env m pre = some m₁ := by
  obtain ⟨post, rfl⟩ := hp
  rw [run_append] at h
  obtain ⟨m₁, h₁, -⟩ := Option.bind_eq_some_iff.mp h
  exact ⟨m₁, h₁⟩

theorem specRun_concat (pre : List Op) (op : Op) :
    specRun (pre ++ [op]) = specStep (specRun pre) op := by
  simp [specRun, List.foldl_append]

/-- By induction on the calls made so far: the invariant holds after each prefix of a run, as
long as each clear finds no document above its bound. -/
theorem run_represented {m₀ : SegmentManager} {ops : List Op} (h₀ : m₀.Represented ∅)
    (hlow : ∀ pre m₁ m₂, pre ++ [.clearAllDocuments] <+: ops → run env m₀ pre = some m₁ →
      clearAllDocuments env m₁ = (true, m₂) →
      run env m₀ (pre ++ [.clearAllDocuments]) = some m₂ →
      m₁.Represented (specRun pre) → NoHighCollection (specRun pre)) (pre : List Op)
    (hpre : pre <+: ops) (hrun : run env m₀ pre = some m) : m.Represented (specRun pre) := by
  induction pre using List.reverseRecOn generalizing m with
  | nil =>
    obtain rfl : m₀ = m := by simpa [run] using hrun
    exact h₀
  | append_singleton pre op ih =>
    obtain ⟨m₁, h₁, hstep⟩ := run_concat hrun
    have hrep := ih ((List.prefix_append pre [op]).trans hpre) h₁
    rw [specRun_concat]
    refine step_represented hrep ?_ hstep
    rintro rfl
    exact hlow pre m₁ m hpre h₁ (step_eq_some hstep) hrun hrep

/-- **The segmented store refines the map of documents** in every state of a run exactly when
each clear of the run finds no document of a collection above its bound. -/
theorem run_agrees_iff {env : Env} {options : StorageOptions} {m₀ m : SegmentManager}
    {ops : List Op} (h₀ : initializeEmpty env options = (true, m₀))
    (hrun : run env m₀ ops = some m) :
    (∀ pre m', pre <+: ops → run env m₀ pre = some m' → Agrees env m' (specRun pre)) ↔
      ∀ pre, pre ++ [.clearAllDocuments] <+: ops → NoHighCollection (specRun pre) := by
  have hrep₀ := initializeEmpty_represented h₀
  constructor
  · intro hagrees pre hpre
    -- a clear that leaves a record behind is contradicted by the state right after it
    have hlow : ∀ pre m₁ m₂, pre ++ [.clearAllDocuments] <+: ops → run env m₀ pre = some m₁ →
        clearAllDocuments env m₁ = (true, m₂) →
        run env m₀ (pre ++ [.clearAllDocuments]) = some m₂ →
        m₁.Represented (specRun pre) → NoHighCollection (specRun pre) := by
      intro pre m₁ m₂ hp _ hc hr hrep
      have ha := hagrees _ m₂ hp hr
      rw [specRun_concat] at ha
      exact noHighCollection_of_agrees hrep hc ha
    obtain ⟨m₂, h₂⟩ := run_prefix hpre hrun
    obtain ⟨m₁, h₁, hstep⟩ := run_concat h₂
    have hrep := run_represented hrep₀ hlow pre
      ((List.prefix_append pre [.clearAllDocuments]).trans hpre) h₁
    refine hlow pre m₁ m₂ hpre h₁ ?_ h₂ hrep
    simp only [step] at hstep
    split at hstep
    · rename_i heq; rw [heq, Option.some.inj hstep]
    · cases hstep
  · intro hlow pre m' hpre hr
    exact (run_represented hrep₀ (fun pre _ _ hp _ _ _ _ => hlow pre hp) pre hpre hr).agrees env

/-! ## Two runs

The environment of both runs answers every call; segments take two documents. The first run rotates,
overwrites a document of a sealed segment, deletes, clears and writes again, and meets the
condition. The second writes one document and clears. -/

def calmEnv : Env where
  ok _ := true
  nowMs n := n.toUInt64
  directorySize _ := 0

def twoDocuments : StorageOptions := { segmentMaxDocs := 2, segmentMaxBytes := 0 }

def emptyStore : SegmentManager := (initializeEmpty calmEnv twoDocuments).2

theorem emptyStore_eq : initializeEmpty calmEnv twoDocuments = (true, emptyStore) :=
  Prod.ext (by decide) rfl

def rotatingRun : List Op :=
  [.batchSetDocuments [(lit "doc:c:1", lit "a"), (lit "doc:c:2", lit "b")],
    .setDocument (lit "doc:c:1") (lit "z"), .deleteDocument (lit "doc:c:2"),
    .deleteCollection (lit "c"), .clearAllDocuments, .setDocument (lit "doc:c:1") (lit "y")]

def highRun : List Op := [.setDocument (lit "doc:\xffc:1") (lit "v"), .clearAllDocuments]

theorem run_rotatingRun : (run calmEnv emptyStore rotatingRun).isSome = true := by decide

theorem run_highRun : (run calmEnv emptyStore highRun).isSome = true := by decide

theorem run_agrees_iff_rotatingRun :
    (∀ pre m', pre <+: rotatingRun → run calmEnv emptyStore pre = some m' →
        Agrees calmEnv m' (specRun pre)) ↔
      ∀ pre, pre ++ [.clearAllDocuments] <+: rotatingRun → NoHighCollection (specRun pre) :=
  run_agrees_iff emptyStore_eq (Option.some_get run_rotatingRun).symm

/-- The cleared document is still listed, and cannot be read. -/
theorem highRun_disagrees : ∃ m, run calmEnv emptyStore highRun = some m ∧
      m.prefixKeys (collectionStart (lit "\xffc")) 0 0 = [lit "doc:\xffc:1"] ∧
      (m.getDocument calmEnv (lit "doc:\xffc:1")).1 = [] ∧
      ¬ Agrees calmEnv m (specRun highRun) := by
  have hkeys : (run calmEnv emptyStore highRun).map
      (fun m => m.prefixKeys (collectionStart (lit "\xffc")) 0 0) = some [lit "doc:\xffc:1"] := by
    decide +kernel
  have hget : (run calmEnv emptyStore highRun).map
      (fun m => (m.getDocument calmEnv (lit "doc:\xffc:1")).1) = some [] := by
    decide +kernel
  obtain ⟨m, hm⟩ := Option.isSome_iff_exists.mp run_highRun
  rw [hm, Option.map_some, Option.some.injEq] at hkeys hget
  refine ⟨m, hm, hkeys, hget, fun h => ?_⟩
  have hlist := h.prefixKeys (lit "\xffc")
  rw [hkeys] at hlist
  exact absurd hlist (by decide)

end Hlquery.Store.SegmentManager
