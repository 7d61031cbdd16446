import HybridTemplate.Proofs.Build.Steps
import HybridTemplate.Proofs.Component.Refusals

set_option autoImplicit false

/-! Sources that fail leave no trace in a build. Each source has its verdict, which is how a new
extractor fares with it when its turn comes. A build of all sources and one of the accepted ones
write the same files, hand the same dependencies on and end with the same modules and the same
bundle; the failures of the first are the refused sources, in order. -/
namespace HybridTemplate.Build

open HybridTemplate.Bundle (Programs)
open Component (Descriptor Document Extraction Extractor Settled settled_fresh)
open CompileError (IsIo isIo_io)
open Config (BuildConfig)
open Session
open Visit (outcome outcome_bind outcome_bind_eq_ok outcome_modify_bind outcome_pure Agree Alike
  AlikeFrom alike_pure)

variable {grammar : Grammar} {scratch : Path} {source : SourceFile}

def settleFile (source : SourceFile) (scratch : Path) (extraction : Extraction) :
    Session (Except CompileError (List WrittenModule)) := do
  modify fun s => { s with warnings := s.warnings ++ extraction.warnings }
  match extraction.result with
  | .error e => if e.isPerFile then return .error e else throw e
  | .ok components => return .ok (← writeModules source scratch components)

theorem compileFile_eq (grammar : Grammar) (scratch : Path) (x : Extractor) (source : SourceFile) :
    compileFile grammar scratch x source = do
      let text ← Session.readText source.path
      let read := x.read (.text grammar text (some source))
      let result ← settleFile source scratch read.1
      return (read.2, result) := by
  unfold compileFile settleFile
  refine congrArg _ (funext fun text => ?_)
  rw [Extractor.read]
  rcases x.extractSource grammar text (some source) with ⟨extraction, y⟩
  simp only [bind_assoc]
  refine congrArg _ (funext fun _ => ?_)
  cases extraction.result with
  | error e =>
    dsimp only
    split
    · rw [pure_bind]
    · rfl
  | ok components => simp only [bind_assoc, pure_bind]

theorem steady_settleFile {extraction : Extraction}
    (h : ∀ e, extraction.result = .error e → e.isPerFile = true) :
    Steady IsIo (settleFile source scratch extraction) := by
  refine Alike.bind (Visit.alike_modify fun _ _ same => same) fun _ _ _ => ?_
  cases failed : extraction.result with
  | error e =>
    dsimp only
    rw [if_pos (h e failed)]
    exact steady_pure _
  | ok components =>
    exact (steady_writeModules source scratch components).bind fun _ => steady_pure _

theorem settleFile_error {extraction : Extraction} {e : CompileError} {w w' : Workspace}
    (h : outcome (settleFile source scratch extraction) w = (.ok (.error e), w')) :
    extraction.result = .error e ∧ SameButWarnings w w' := by
  unfold settleFile at h
  rw [outcome_modify_bind] at h
  cases failed : extraction.result with
  | error d =>
    rw [failed] at h
    dsimp only at h
    split at h
    · cases h
      exact ⟨rfl, rfl, rfl⟩
    · cases h
  | ok components =>
    rw [failed, outcome_bind_eq_ok] at h
    obtain ⟨_, _, -, ended⟩ := h
    cases ended

/-- Two settled extractors compile a file alike, whatever they have read before. -/
theorem compileFile_alike (grammar : Grammar) (scratch : Path) (source : SourceFile)
    {x y : Extractor} (hx : Settled x) (hy : Settled y) :
    Alike SameButWarnings (fun e f => f = e ∧ e.IsIo)
      (fun a b => b.2 = a.2 ∧ Settled a.1 ∧ Settled b.1 ∧
        (y.dependencies = x.dependencies → b.1.dependencies = a.1.dependencies))
      (compileFile grammar scratch x source) (compileFile grammar scratch y source) := by
  rw [compileFile_eq, compileFile_eq]
  refine Alike.bind (steady_readText isIo_io source.path) fun text _ same => ?_
  subst same
  have read (z : Extractor) (hz : Settled z) :=
    Extractor.read_settled hz (.text grammar text (some source))
  dsimp only
  rw [(read x hx).1, (read y hy).1]
  refine Alike.bind (steady_settleFile fun e => Extractor.isPerFile_of_read) fun r _ same => ?_
  subst same
  refine alike_pure ⟨rfl, (read x hx).2.1, (read y hy).2.1, fun deps => ?_⟩
  exact (Extractor.read_same hx hy deps _).2

/-- A refused source changes neither the files nor the dependencies. -/
theorem compileFile_refused {x x' : Extractor} (hx : Settled x) {e : CompileError}
    {w w' : Workspace}
    (h : outcome (compileFile grammar scratch x source) w = (.ok (x', .error e), w')) :
    x'.dependencies = x.dependencies ∧ SameButWarnings w w' := by
  rw [compileFile_eq] at h
  obtain ⟨text, _, read, h⟩ := outcome_bind_eq_ok.mp h
  obtain ⟨result, _, settled, ended⟩ := outcome_bind_eq_ok.mp h
  cases ended
  obtain ⟨-, -, rfl⟩ := readText_eq_ok.mp read
  obtain ⟨failed, same⟩ := settleFile_error settled
  have after := (Extractor.read_settled hx (.text grammar text (some source))).2.2
  rw [failed] at after
  exact ⟨after, same⟩

/-- A source with the error that it is refused with, if it is. -/
abbrev Verdict := SourceFile × Option CompileError

/-- The verdicts on sources, each with the workspace as it is when its turn comes. Where
reading or writing fails the build ends, and no source from there on is refused. -/
def verdicts (grammar : Grammar) (scratch : Path) : Workspace → List SourceFile → List Verdict
  | _, [] => []
  | w, source :: rest =>
    match outcome (compileFile grammar scratch .fresh source) w with
    | (.ok (_, .error e), after) => (source, some e) :: verdicts grammar scratch after rest
    | (.ok (_, .ok _), after) => (source, none) :: verdicts grammar scratch after rest
    | (.error _, _) => (source, none) :: rest.map fun s => (s, none)

def accepted (vs : List Verdict) : List SourceFile := (vs.filter fun v => v.2.isNone).map (·.1)

def refused (vs : List Verdict) : List FileFailure :=
  vs.filterMap fun v => v.2.map fun e => ⟨v.1.path, e⟩

theorem map_verdicts (w : Workspace) (sources : List SourceFile) :
    (verdicts grammar scratch w sources).map (·.1) = sources := by
  induction sources generalizing w with
  | nil => rfl
  | cons source rest ih =>
    rw [verdicts]
    split
    · rw [List.map_cons, ih]
    · rw [List.map_cons, ih]
    · rw [List.map_cons, List.map_map]
      exact congrArg _ (List.map_id rest)

theorem accepted_none (sources : List SourceFile) :
    accepted (sources.map fun s => (s, none)) = sources := by
  rw [accepted, List.filter_eq_self.mpr (by simp), List.map_map]
  exact List.map_id sources

/-- Two builds that have come equally far, but for their failures. -/
structure InStep (p q : Progress) : Prop where
  settled : Settled p.extractor
  settled' : Settled q.extractor
  dependencies : q.extractor.dependencies = p.extractor.dependencies
  modules : q.modules = p.modules

section

variable {p : Progress} {x : Extractor} {w w' : Workspace}

theorem compileNext_of_ok {modules : List WrittenModule}
    (h : outcome (compileFile grammar scratch p.extractor source) w = (.ok (x, .ok modules), w')) :
    outcome (compileNext grammar scratch p source) w =
      (.ok { p with extractor := x, modules := p.modules ++ modules }, w') := by
  rw [compileNext, outcome_bind, h]
  rfl

theorem compileNext_of_refused {e : CompileError}
    (h : outcome (compileFile grammar scratch p.extractor source) w = (.ok (x, .error e), w')) :
    outcome (compileNext grammar scratch p source) w =
      (.ok { p with extractor := x, failures := p.failures ++ [⟨source.path, e⟩] }, w') := by
  rw [compileNext, outcome_bind, h]
  rfl

theorem compileNext_of_error {e : CompileError}
    (h : outcome (compileFile grammar scratch p.extractor source) w = (.error e, w')) :
    outcome (compileNext grammar scratch p source) w = (.error e, w') := by
  rw [compileNext, outcome_bind, h]

end

structure EndsInStep (failed : List FileFailure) (p q p' q' : Progress) : Prop extends
    InStep p' q' where
  failures : p'.failures = p.failures ++ failed
  failures' : q'.failures = q.failures

/-- Compiling the accepted sources alone keeps in step with compiling all. The three
workspaces are those of the verdicts, of the full build and of the other. -/
theorem foldlM_accepted (sources : List SourceFile) {u w v : Workspace} {p q : Progress}
    (uw : SameButWarnings u w) (wv : SameButWarnings w v) (inStep : InStep p q) :
    let vs := verdicts grammar scratch u sources
    AlikeFrom SameButWarnings (fun e f => f = e ∧ e.IsIo) (EndsInStep (refused vs) p q)
      (sources.foldlM (compileNext grammar scratch) p)
      ((accepted vs).foldlM (compileNext grammar scratch) q) w v := by
  induction sources generalizing u w v p q with
  | nil =>
    refine ⟨.ok ⟨inStep, ?_, rfl⟩, wv⟩
    exact (List.append_nil _).symm
  | cons source rest ih =>
    obtain ⟨judged, uw'⟩ :=
      compileFile_alike grammar scratch source settled_fresh inStep.settled u w uw
    obtain ⟨both, wv'⟩ :=
      compileFile_alike grammar scratch source inStep.settled inStep.settled' w v wv
    rcases trial : outcome (compileFile grammar scratch .fresh source) u with ⟨r₀, u'⟩
    rcases full : outcome (compileFile grammar scratch p.extractor source) w with ⟨r₁, w'⟩
    rcases good : outcome (compileFile grammar scratch q.extractor source) v with ⟨r₂, v'⟩
    rw [trial, full] at judged uw'
    rw [full, good] at both wv'
    unfold AlikeFrom
    dsimp only
    rw [verdicts, trial]
    cases judged with
    | error same =>
      cases both with
      | error same' =>
        have rest' : accepted ((source, none) :: rest.map fun s => (s, none)) = source :: rest :=
          accepted_none (source :: rest)
        dsimp only
        rw [rest', List.foldlM_cons, List.foldlM_cons, outcome_bind, outcome_bind,
          compileNext_of_error full, compileNext_of_error good]
        exact ⟨.error same', wv'⟩
    | @ok a b same =>
      obtain ⟨x₀, r⟩ := a
      obtain ⟨x₁, r₁⟩ := b
      obtain ⟨result, -, settled, -⟩ := same
      obtain rfl : r₁ = r := result
      cases both with
      | @ok _ c same' =>
        obtain ⟨x₂, r₂⟩ := c
        obtain ⟨result, -, settled', deps⟩ := same'
        obtain rfl : r₂ = r₁ := result
        cases r₂ with
        | error e =>
          obtain ⟨kept, ww'⟩ := compileFile_refused inStep.settled full
          have next : InStep { p with
              extractor := x₁, failures := p.failures ++ [⟨source.path, e⟩] } q :=
            ⟨settled, inStep.settled', inStep.dependencies.trans kept.symm, inStep.modules⟩
          obtain ⟨agree, states⟩ := ih uw' (ww'.symm.trans wv) next
          rw [List.foldlM_cons, outcome_bind, compileNext_of_refused full]
          refine ⟨agree.mono fun p' q' ends => ?_, states⟩
          refine ⟨ends.toInStep, ?_, ends.failures'⟩
          rw [ends.failures, List.append_assoc]
          rfl
        | ok modules =>
          have next : InStep { p with extractor := x₁, modules := p.modules ++ modules }
              { q with extractor := x₂, modules := q.modules ++ modules } :=
            ⟨settled, settled', deps inStep.dependencies,
              congrArg (· ++ modules) inStep.modules⟩
          obtain ⟨agree, states⟩ := ih uw' wv' next
          have first (vs : List Verdict) :
              accepted ((source, none) :: vs) = source :: accepted vs := rfl
          dsimp only
          rw [first, List.foldlM_cons, List.foldlM_cons, outcome_bind, outcome_bind,
            compileNext_of_ok full, compileNext_of_ok good]
          exact ⟨agree.mono fun p' q' ends =>
            ⟨ends.toInStep, ends.failures, ends.failures'⟩, states⟩

theorem inStep_fresh : InStep ⟨.fresh, [], []⟩ ⟨.fresh, [], []⟩ :=
  ⟨settled_fresh, settled_fresh, rfl, rfl⟩

/-- What two builds have in common that compile the same but for sources that fail. -/
structure SameBuild (failed : List FileFailure) (full good : Report) : Prop where
  failures : full.failures = failed
  failures' : good.failures = []
  modules : good.modules = full.modules
  bundle : good.bundle = full.bundle

theorem compileAll_accepted (grammar : Grammar) (scratch : Path) (w : Workspace)
    (sources : List SourceFile) :
    let vs := verdicts grammar scratch w sources
    AlikeFrom SameButWarnings (fun e f => f = e ∧ e.IsIo)
      (EndsInStep (refused vs) ⟨.fresh, [], []⟩ ⟨.fresh, [], []⟩)
      (compileAll grammar scratch sources) (compileAll grammar scratch (accepted vs)) w w :=
  foldlM_accepted sources (.refl w) (.refl w) inStep_fresh

theorem runIn_accepted (programs : Programs) (config : BuildConfig) (w : Workspace)
    (sources : List SourceFile) :
    let vs := verdicts grammar scratch w sources
    AlikeFrom SameButWarnings (fun e f => f = e ∧ e.IsIo) (SameBuild (refused vs))
      (runIn programs grammar config scratch sources)
      (runIn programs grammar config scratch (accepted vs)) w w := by
  refine AlikeFrom.bind (compileAll_accepted grammar scratch w sources) fun p q ends => ?_
  have bundling : Steady IsIo (bundleOutcome (Bundle.bundle programs scratch
      (p.modules.map fun m => scratch.join m.path) p.extractor.takeDependencies.1 config)) :=
    steady_bundleOutcome (Bundle.steady_bundle _ _ _ _ _)
  dsimp only [Extractor.takeDependencies] at bundling ⊢
  rw [ends.modules, ends.dependencies]
  refine Alike.bind bundling fun outcome _ same => alike_pure ?_
  exact ⟨ends.failures, ends.failures', rfl, same.symm⟩

def prepare (config : BuildConfig) : Session Path := do
  prepareOutput config
  makeScratch config

def runOn (programs : Programs) (grammar : Grammar) (config : BuildConfig)
    (sources : List SourceFile) (scratch : Path) : Session Report := do
  let report ← tryCatch (runIn programs grammar config scratch sources) fun e => do
    dropScratch scratch
    throw e
  closeScratch scratch
  return report

theorem run_eq (programs : Programs) (grammar : Grammar) (config : BuildConfig)
    (sources : List SourceFile) :
    run programs grammar config sources =
      prepare config >>= runOn programs grammar config sources := by
  rw [run, prepare, bind_assoc]
  rfl

theorem runOn_accepted (programs : Programs) (config : BuildConfig) (w : Workspace)
    (sources : List SourceFile) :
    let vs := verdicts grammar scratch w sources
    AlikeFrom SameButWarnings (fun e f => f = e ∧ e.IsIo) (SameBuild (refused vs))
      (runOn programs grammar config sources scratch)
      (runOn programs grammar config (accepted vs) scratch) w w := by
  refine AlikeFrom.bind (AlikeFrom.tryCatch (runIn_accepted programs config w sources) ?_)
    fun r g same => ?_
  · rintro e _ ⟨rfl, kind⟩
    exact Alike.bind (steady_dropScratch scratch) fun _ _ _ => Visit.alike_throw ⟨rfl, kind⟩
  · exact Alike.bind (steady_closeScratch scratch) fun _ _ _ => alike_pure same

def verdictsOf (grammar : Grammar) (config : BuildConfig) (w : Workspace)
    (sources : List SourceFile) : List Verdict :=
  match outcome (prepare config) w with
  | (.ok scratch, started) => verdicts grammar scratch started sources
  | (.error _, _) => sources.map fun s => (s, none)

theorem map_verdictsOf (config : BuildConfig) (w : Workspace) (sources : List SourceFile) :
    (verdictsOf grammar config w sources).map (·.1) = sources := by
  unfold verdictsOf
  split
  · exact map_verdicts _ sources
  · rw [List.map_map]
    exact List.map_id sources

theorem alikeFrom_run_accepted (programs : Programs) (grammar : Grammar) (config : BuildConfig)
    (w : Workspace) (sources : List SourceFile) :
    let vs := verdictsOf grammar config w sources
    AlikeFrom SameButWarnings (fun e f => f = e ∧ e.IsIo) (SameBuild (refused vs))
      (run programs grammar config sources) (run programs grammar config (accepted vs)) w w := by
  intro vs
  have preparing : Steady IsIo (prepare config) :=
    (steady_prepareOutput config).bind fun _ => steady_makeScratch config
  rw [run_eq, run_eq]
  unfold AlikeFrom
  rw [outcome_bind, outcome_bind]
  rcases started : outcome (prepare config) w with ⟨e | scratch, w'⟩
  · obtain ⟨agree, -⟩ := preparing w w (.refl w)
    rw [started] at agree
    cases agree with
    | error same => exact ⟨.error same, .refl w'⟩
  · have judged : vs = verdicts grammar scratch w' sources := by
      simp only [vs, verdictsOf, started]
    rw [judged]
    exact runOn_accepted programs config w' sources

/-- Failing sources leave no trace. In any scratch directory the accepted sources alone give
the same files, modules and dependencies as all the sources do; a whole build of them writes
the same files and ends with the same modules and bundle, and fails, if at all, with the same
error about reading or writing. The failures of the full build are the other sources. -/
theorem run_accepted (programs : Programs) (grammar : Grammar) (config : BuildConfig)
    (w : Workspace) (sources : List SourceFile) :
    (∀ scratch : Path,
      let vs := verdicts grammar scratch w sources
      let full := outcome (compileAll grammar scratch sources) w
      let good := outcome (compileAll grammar scratch (accepted vs)) w
      vs.map (·.1) = sources ∧ good.2.files = full.2.files ∧
        Agree (fun e f => f = e ∧ e.IsIo)
          (fun p q => q.modules = p.modules ∧
            q.extractor.takeDependencies.1 = p.extractor.takeDependencies.1 ∧
            p.failures = refused vs ∧ q.failures = []) full.1 good.1) ∧
      let vs := verdictsOf grammar config w sources
      let full := outcome (run programs grammar config sources) w
      let good := outcome (run programs grammar config (accepted vs)) w
      vs.map (·.1) = sources ∧ good.2.files = full.2.files ∧
        Agree (fun e f => f = e ∧ e.IsIo)
          (fun r g => g.modules = r.modules ∧ g.bundle = r.bundle ∧ r.failures = refused vs ∧
            g.failures = []) full.1 good.1 := by
  constructor
  · intro scratch
    obtain ⟨agree, states⟩ := compileAll_accepted grammar scratch w sources
    refine ⟨map_verdicts w sources, states.1, agree.mono fun p q ends => ?_⟩
    exact ⟨ends.modules, ends.dependencies, ends.failures, ends.failures'⟩
  · obtain ⟨agree, states⟩ := alikeFrom_run_accepted programs grammar config w sources
    refine ⟨map_verdictsOf config w sources, states.1, agree.mono fun r g same => ?_⟩
    exact ⟨same.modules, same.bundle, same.failures, same.failures'⟩

end HybridTemplate.Build
