/-
  Gsim/EmitUnits.lean
  ===================
  **Emitting units in parallel** (`graph::__emitSrc`, `rotateSrcFile`,
  `flushEmitBufs` and `emitUnitsParallel` in `cppEmitter.cpp`, the context that
  `genSuperEval` saves and restores in `cppEmitterEmitCore.cpp`).

  Every emission is one call of `__emitSrc`.  Without capture it decides by the
  bytes counted so far whether to begin a new file, and writes; with a buffer set
  it stores what that decision will read and is replayed later.  A unit is run by
  the same code in both modes (`renderUnit` over a sink), so all there is to see is
  that a stored call replays as itself (`emitSrc_eq_flush`), that a unit leaves the
  context as it found it, and that every buffer is filled once whoever fills it.

  `none` is a failed `assert`.  A call stands here with its text formatted; `indent`
  is a depth of nesting, which no caller takes below zero.  The callers inside a
  unit are the macros `emitFuncDecl` and `emitBodyLock`, which drop the returned
  flag.
-/
import Gsim.CanonHash

namespace Gsim.EmitUnits

open Gsim.ByteStream Gsim.TaskPool

/-! ## Calls and files -/

/-- A call of `__emitSrc`, with what `fmt` prints. -/
structure EmitCall where
  indent : Nat
  canNewFile : Bool
  alreadyEndFunc : Bool
  nextFuncDef : Option Bytes
  text : Bytes
deriving DecidableEq, Repr

structure EmitChunk where
  text : Bytes
  countedBytes : Nat
  canNewFile : Bool
  alreadyEndFunc : Bool
  hasNextFuncDef : Bool
  nextFuncDef : Bytes
deriving DecidableEq, Repr

abbrev EmitBuf := List EmitChunk

/-- `name` and `cppMaxSizeKB`. -/
structure EmitConfig where
  name : Bytes
  cppMaxSizeKB : UInt32
deriving DecidableEq, Repr

/-- A file by the number in its path. -/
structure SrcFile where
  idx : Nat
  content : Bytes
deriving DecidableEq, Repr

/-- The files written so far and the open one; `srcFileBytes` is an `int`, compared unsigned. -/
structure Output where
  closed : List SrcFile
  srcFp : Option SrcFile
  srcFileIdx : Nat
  srcFileBytes : UInt32
deriving DecidableEq, Repr

def bytesOf (s : String) : Bytes := s.toList.map fun c => UInt8.ofNat c.toNat

/-- What a file begins with. -/
def includeLine (cfg : EmitConfig) : Bytes := bytesOf "#include \"" ++ cfg.name ++ bytesOf ".h\"\n"

def funcDefLine (nextFuncDef : Bytes) : Bytes := nextFuncDef ++ bytesOf " \x7b\n"

def SrcFile.append (f : SrcFile) (text : Bytes) : SrcFile := { f with content := f.content ++ text }

/-- Close the open file, with the brace of the current function if it is still open. -/
def Output.close (out : Output) (alreadyEndFunc : Bool) : List SrcFile :=
  match out.srcFp with
  | none => out.closed
  | some f => out.closed ++ [if alreadyEndFunc then f else f.append (bytesOf "\x7d")]

def rotateSrcFile (cfg : EmitConfig) (alreadyEndFunc : Bool) (nextFuncDef : Option Bytes)
    (out : Output) : Output :=
  let opened : Output :=
    { closed := out.close alreadyEndFunc
      srcFp := some ⟨out.srcFileIdx, includeLine cfg⟩
      srcFileIdx := out.srcFileIdx + 1
      srcFileBytes := UInt32.ofNat (includeLine cfg).length }
  match nextFuncDef with
  | none => opened
  | some f =>
    { opened with
      srcFp := opened.srcFp.map fun file => file.append (funcDefLine f)
      srcFileBytes := opened.srcFileBytes + UInt32.ofNat (funcDefLine f).length }

/-- `srcFp == NULL || (srcFileBytes > cppMaxSizeKB * 1024 && canNewFile)` -/
def mustRotate (cfg : EmitConfig) (canNewFile : Bool) (out : Output) : Bool :=
  out.srcFp.isNone || decide (cfg.cppMaxSizeKB * 1024 < out.srcFileBytes) && canNewFile

/-- Write a text of which `counted` bytes are counted. -/
def Output.write (out : Output) (text : Bytes) (counted : Nat) : Output :=
  { out with
    srcFp := out.srcFp.map fun file => file.append text
    srcFileBytes := out.srcFileBytes + UInt32.ofNat counted }

def spaces (indent : Nat) : Bytes := List.replicate (indent * 2) 0x20

/-- A format call that printed nothing, or more than an `int` can say, fails an assertion. -/
def printable (text : Bytes) : Bool := 0 < text.length && text.length < 2 ^ 31

/-! ## The two modes of `__emitSrc` -/

/-- Without capture. -/
def emitSrc (cfg : EmitConfig) (call : EmitCall) (out : Output) : Option Output :=
  let out := if mustRotate cfg call.canNewFile out then
      rotateSrcFile cfg call.alreadyEndFunc call.nextFuncDef out
    else out
  if printable call.text then
    some ((out.write (spaces call.indent) 0).write call.text call.text.length)
  else none

/-- With capture: the chunk that is pushed. -/
def captureCall (call : EmitCall) : Option EmitChunk :=
  if call.text.length < 2 ^ 31 then
    let text := (if 0 < call.indent then spaces call.indent else []) ++ call.text
    let countedBytes := text.length - call.indent * 2
    if 0 < countedBytes then
      some
        { text := text
          countedBytes := countedBytes
          canNewFile := call.canNewFile
          alreadyEndFunc := call.alreadyEndFunc
          hasNextFuncDef := call.nextFuncDef.isSome
          nextFuncDef := call.nextFuncDef.getD [] }
    else none
  else none

def captureSrc (call : EmitCall) (buf : EmitBuf) : Option EmitBuf :=
  (captureCall call).map fun chunk => buf ++ [chunk]

/-- One chunk of the replay. -/
def flushChunk (cfg : EmitConfig) (out : Output) (chunk : EmitChunk) : Output :=
  let out := if mustRotate cfg chunk.canNewFile out then
      rotateSrcFile cfg chunk.alreadyEndFunc
        (if chunk.hasNextFuncDef then some chunk.nextFuncDef else none) out
    else out
  out.write chunk.text chunk.countedBytes

def flushEmitBufs (cfg : EmitConfig) (bufs : List EmitBuf) (out : Output) : Output :=
  bufs.foldl (fun out buf => buf.foldl (flushChunk cfg) out) out

/-! ## Units -/

/-- The two flags that every thread has for itself. -/
structure EmitCtx where
  traceSuppressed : Bool
  traceSourceCppId : Int
deriving DecidableEq, Repr

/-- A piece of a unit: a call, or a `genSuperEval` with the calls inside it. -/
inductive Piece where
  | emit (call : EmitCtx → EmitCall)
  | superEval (cppId : Int) (emitActivation : Bool) (body : List (EmitCtx → EmitCall))

abbrev EmitUnit := List Piece

section Render

variable {σ : Type} (sink : EmitCall → σ → Option σ)

def renderCalls (ctx : EmitCtx) (body : List (EmitCtx → EmitCall)) (s : σ) : Option σ :=
  body.foldlM (fun s call => sink (call ctx) s) s

def renderPiece (ctx : EmitCtx) (s : σ) : Piece → Option (EmitCtx × σ)
  | .emit call => (sink (call ctx) s).map fun s => (ctx, s)
  | .superEval cppId emitActivation body =>
    let savedTraceSourceCppId := ctx.traceSourceCppId
    let inner := if emitActivation && !ctx.traceSuppressed then
        { ctx with traceSourceCppId := cppId }
      else ctx
    (renderCalls sink inner body s).map fun s =>
      ({ inner with traceSourceCppId := savedTraceSourceCppId }, s)

/-- The calls of a unit, each sent to the sink. -/
def renderUnit (unit : EmitUnit) (ctx : EmitCtx) (s : σ) : Option (EmitCtx × σ) :=
  unit.foldlM (fun cs piece => renderPiece sink cs.1 cs.2 piece) (ctx, s)

end Render

/-- The units one after the other, without capture. -/
def emitUnits (cfg : EmitConfig) (units : List EmitUnit) (ctx : EmitCtx) (out : Output) :
    Option (EmitCtx × Output) :=
  units.foldlM (fun co unit => renderUnit (emitSrc cfg) unit co.1 co.2) (ctx, out)

/-- A unit rendered into its own, empty buffer. -/
def captureUnit (unit : EmitUnit) (ctx : EmitCtx) : Option (EmitCtx × EmitBuf) :=
  renderUnit captureSrc unit ctx []

/-- The branch for a single worker. -/
def captureUnits : List EmitUnit → EmitCtx → Option (List EmitBuf)
  | [], _ => some []
  | unit :: rest, ctx => do
    let (ctx, buf) ← captureUnit unit ctx
    let bufs ← captureUnits rest ctx
    some (buf :: bufs)

/-! ## The workers -/

/-- The shared counter, where each worker is, its flags, and the buffers. -/
structure Pool where
  nextUnit : Nat
  phase : Nat → Phase Nat
  ctx : Nat → EmitCtx
  bufs : Nat → EmitBuf

/-- Every worker starts from the flags of the main thread. -/
def Pool.start (ctx : EmitCtx) : Pool := ⟨0, fun _ => .idle, fun _ => ctx, fun _ => []⟩

/-- A worker takes a number with `fetch_add`, and renders the unit or leaves.  A buffer belongs to
the worker that took its number, so a rendering is one step; one that fails has none. -/
inductive PoolStep (units : List EmitUnit) (nWorkers : Nat) (p : Pool) : Pool → Prop
  | take {w : Nat} (worker : w < nWorkers) (idle : p.phase w = .idle)
      (more : p.nextUnit < units.length) :
      PoolStep units nWorkers p { p with
        nextUnit := p.nextUnit + 1
        phase := Function.update p.phase w (.busy p.nextUnit) }
  | leave {w : Nat} (worker : w < nWorkers) (idle : p.phase w = .idle)
      (done : units.length ≤ p.nextUnit) :
      PoolStep units nWorkers p { p with
        nextUnit := p.nextUnit + 1
        phase := Function.update p.phase w .left }
  | render {w u : Nat} {unit : EmitUnit} {ctx : EmitCtx} {buf : EmitBuf} (worker : w < nWorkers)
      (busy : p.phase w = .busy u) (here : units[u]? = some unit)
      (rendered : captureUnit unit (p.ctx w) = some (ctx, buf)) :
      PoolStep units nWorkers p { p with
        phase := Function.update p.phase w .idle
        ctx := Function.update p.ctx w ctx
        bufs := Function.update p.bufs u buf }

/-- All threads are joined. -/
def Pool.Joined (p : Pool) (nWorkers : Nat) : Prop := ∀ w, w < nWorkers → p.phase w = .left

/-- `out'` is what `emitUnitsParallel` can make of `out`, with `threads` the number that
`emitParallelThreadCount` returns. -/
def EmitUnitsParallel (cfg : EmitConfig) (threads : Nat) (units : List EmitUnit) (ctx : EmitCtx)
    (out out' : Output) : Prop :=
  if units.length = 0 then out' = out
  else
    let nWorkers := min threads units.length
    if nWorkers ≤ 1 then
      ∃ bufs, captureUnits units ctx = some bufs ∧ out' = flushEmitBufs cfg bufs out
    else
      ∃ p, Relation.ReflTransGen (PoolStep units nWorkers) (Pool.start ctx) p ∧
        p.Joined nWorkers ∧
        out' = flushEmitBufs cfg ((List.range units.length).map p.bufs) out

/-! ## A chunk replays as its call -/

theorem write_write (out : Output) (a b : Bytes) (n : Nat) :
    (out.write a 0).write b n = out.write (a ++ b) n := by
  cases hfp : out.srcFp <;> simp [Output.write, SrcFile.append, hfp]

theorem captureCall_eq (call : EmitCall) :
    captureCall call =
      if printable call.text then
        some ⟨spaces call.indent ++ call.text, call.text.length, call.canNewFile,
          call.alreadyEndFunc, call.nextFuncDef.isSome, call.nextFuncDef.getD []⟩
      else none := by
  have hspaces : (if 0 < call.indent then spaces call.indent else []) = spaces call.indent := by
    by_cases h : 0 < call.indent
    · rw [if_pos h]
    · simp [spaces, Nat.eq_zero_of_not_pos h]
  have hcounted : (spaces call.indent ++ call.text).length - call.indent * 2 =
      call.text.length := by simp [spaces]
  by_cases hlong : call.text.length < 2 ^ 31
  · by_cases hempty : 0 < call.text.length
    · simp only [captureCall, printable, hspaces, hcounted, hlong, hempty, decide_true,
        Bool.and_self, if_true]
    · simp only [captureCall, printable, hspaces, hcounted, if_pos hlong, hempty, decide_false,
        Bool.false_and, Bool.false_eq_true, if_false]
  · simp only [captureCall, printable, hlong, decide_false, Bool.and_false, Bool.false_eq_true,
      if_false]

/-- The replay of a captured call does what the call would have done. -/
theorem emitSrc_eq_flush (cfg : EmitConfig) (call : EmitCall) (out : Output) :
    emitSrc cfg call out = (captureCall call).map (flushChunk cfg out) := by
  have hdef : (if call.nextFuncDef.isSome = true then some (call.nextFuncDef.getD []) else none) =
      call.nextFuncDef := by
    cases call.nextFuncDef <;> rfl
  rw [captureCall_eq]
  by_cases hp : printable call.text = true
  · simp only [emitSrc, if_pos hp, write_write, Option.map_some, flushChunk, hdef]
  · simp only [emitSrc, if_neg hp, Option.map_none]

theorem foldlM_emitSrc (cfg : EmitConfig) (calls : List EmitCall) (out : Output) :
    calls.foldlM (fun out call => emitSrc cfg call out) out =
      (calls.mapM captureCall).map fun buf => buf.foldl (flushChunk cfg) out := by
  induction calls generalizing out with
  | nil => rfl
  | cons call rest ih =>
    rw [List.foldlM_cons, List.mapM_cons, emitSrc_eq_flush]
    cases captureCall call with
    | none => rfl
    | some chunk =>
      change rest.foldlM _ _ = _
      rw [ih]
      cases rest.mapM captureCall <;> rfl

theorem foldlM_captureSrc (calls : List EmitCall) (buf : EmitBuf) :
    calls.foldlM (fun buf call => captureSrc call buf) buf =
      (calls.mapM captureCall).map fun chunks => buf ++ chunks := by
  induction calls generalizing buf with
  | nil => simp
  | cons call rest ih =>
    rw [List.foldlM_cons, List.mapM_cons, captureSrc]
    cases captureCall call with
    | none => rfl
    | some chunk =>
      change rest.foldlM _ (buf ++ [chunk]) = _
      rw [ih]
      cases rest.mapM captureCall <;> simp

/-! ## A unit leaves the flags as it found them -/

def pieceCalls (ctx : EmitCtx) : Piece → List EmitCall
  | .emit call => [call ctx]
  | .superEval cppId emitActivation body =>
    body.map fun call => call (if emitActivation && !ctx.traceSuppressed then
      { ctx with traceSourceCppId := cppId } else ctx)

def unitCalls (ctx : EmitCtx) (unit : EmitUnit) : List EmitCall := unit.flatMap (pieceCalls ctx)

section Render

variable {σ : Type} (sink : EmitCall → σ → Option σ)

theorem renderPiece_eq (ctx : EmitCtx) (s : σ) (piece : Piece) :
    renderPiece sink ctx s piece =
      ((pieceCalls ctx piece).foldlM (fun s call => sink call s) s).map fun s => (ctx, s) := by
  cases piece with
  | emit call => simp [renderPiece, pieceCalls]
  | superEval cppId emitActivation body =>
    rw [renderPiece, pieceCalls, List.foldlM_map]
    cases emitActivation && !ctx.traceSuppressed <;> rfl

theorem renderUnit_eq (unit : EmitUnit) (ctx : EmitCtx) (s : σ) :
    renderUnit sink unit ctx s =
      ((unitCalls ctx unit).foldlM (fun s call => sink call s) s).map fun s => (ctx, s) := by
  induction unit generalizing s with
  | nil => rfl
  | cons piece rest ih =>
    rw [renderUnit, List.foldlM_cons, renderPiece_eq, unitCalls, List.flatMap_cons,
      List.foldlM_append]
    cases (pieceCalls ctx piece).foldlM (fun s call => sink call s) s with
    | none => rfl
    | some s' => exact ih s'

end Render

/-- What a unit puts into its buffer. -/
def unitBuf (ctx : EmitCtx) (unit : EmitUnit) : Option EmitBuf :=
  (unitCalls ctx unit).mapM captureCall

theorem captureUnit_eq (unit : EmitUnit) (ctx : EmitCtx) :
    captureUnit unit ctx = (unitBuf ctx unit).map fun buf => (ctx, buf) := by
  rw [captureUnit, renderUnit_eq, foldlM_captureSrc, Option.map_map]
  rfl

theorem captureUnits_eq (units : List EmitUnit) (ctx : EmitCtx) :
    captureUnits units ctx = units.mapM (unitBuf ctx) := by
  induction units with
  | nil => rfl
  | cons unit rest ih =>
    rw [captureUnits, captureUnit_eq, List.mapM_cons]
    cases unitBuf ctx unit with
    | none => rfl
    | some buf =>
      change (captureUnits rest ctx).bind _ = _
      rw [ih]
      rfl

/-- The sequential run is the capture of every unit followed by the replay. -/
theorem emitUnits_eq (cfg : EmitConfig) (units : List EmitUnit) (ctx : EmitCtx) (out : Output) :
    emitUnits cfg units ctx out =
      (units.mapM (unitBuf ctx)).map fun bufs => (ctx, flushEmitBufs cfg bufs out) := by
  induction units generalizing out with
  | nil => rfl
  | cons unit rest ih =>
    rw [emitUnits, List.foldlM_cons, renderUnit_eq, foldlM_emitSrc, List.mapM_cons]
    change _ = Option.map _ ((unitBuf ctx unit).bind _)
    rw [unitBuf]
    cases (unitCalls ctx unit).mapM captureCall with
    | none => rfl
    | some buf =>
      change emitUnits cfg rest ctx _ = _
      rw [ih]
      cases rest.mapM (unitBuf ctx) <;> rfl

/-! ## The workers fill every buffer once -/

section Workers

variable (units : List EmitUnit) (ctx : EmitCtx) (nWorkers : Nat)

/-- The buffer of unit `u`, rendered with the flags of the main thread. -/
def bufOf (u : Nat) : EmitBuf := (units[u]?.bind (unitBuf ctx)).getD []

abbrev Work := TaskPool.State Nat Nat Nat EmitBuf

/-- One step of a pool that works without flags of its own. -/
abbrev WorkStep : Work → Work → Prop :=
  Step (Seed2.segmentCounter units.length) id (bufOf units ctx) nWorkers

/-- The workers seen as such a pool: their flags are still those of the main thread. -/
structure Pool.Matches (p : Pool) (t : Work) : Prop where
  nextUnit : t.supply = p.nextUnit
  phase : t.phase = p.phase
  flags : ∀ w, p.ctx w = ctx
  bufs : ∀ u, p.bufs u = (t.cells u).getD []
  /-- a buffer is filled by rendering its unit -/
  rendered : ∀ u buf, t.cells u = some buf → units[u]?.bind (unitBuf ctx) = some buf

theorem matches_start : (Pool.start ctx).Matches units ctx (State.initial 0) :=
  ⟨rfl, rfl, fun _ => rfl, fun _ => rfl, fun _ _ h => nomatch h⟩

variable {units ctx nWorkers}

theorem take_more {next : Nat} (more : next < units.length) :
    (Seed2.segmentCounter units.length).take next = some (some next, next + 1) := by
  simp [Seed2.segmentCounter, Seed2.fetchAdd, more]

theorem take_done {next : Nat} (done : units.length ≤ next) :
    (Seed2.segmentCounter units.length).take next = some (none, next + 1) := by
  simp [Seed2.segmentCounter, Seed2.fetchAdd, Nat.not_lt.mpr done]

theorem matches_take {p : Pool} {t : Work} {w : Nat} (h : p.Matches units ctx t) :
    Pool.Matches units ctx
      { p with
        nextUnit := p.nextUnit + 1
        phase := Function.update p.phase w (.busy p.nextUnit) }
      { t with
        supply := t.supply + 1
        phase := Function.update t.phase w (.busy t.supply)
        taken := t.taken ++ [(w, t.supply)] } :=
  ⟨congrArg (· + 1) h.nextUnit, by simp only [h.phase, h.nextUnit], h.flags, h.bufs, h.rendered⟩

theorem matches_leave {p : Pool} {t : Work} {w : Nat} (h : p.Matches units ctx t) :
    Pool.Matches units ctx
      { p with nextUnit := p.nextUnit + 1, phase := Function.update p.phase w .left }
      { t with supply := t.supply + 1, phase := Function.update t.phase w .left } :=
  ⟨congrArg (· + 1) h.nextUnit, by simp only [h.phase], h.flags, h.bufs, h.rendered⟩

/-- After a rendering the pools still match, since the unit put the flags back. -/
theorem matches_render {p : Pool} {t : Work} {w u : Nat} {buf : EmitBuf}
    (h : p.Matches units ctx t) (hbuf : units[u]?.bind (unitBuf ctx) = some buf) :
    Pool.Matches units ctx
      { p with
        phase := Function.update p.phase w .idle
        ctx := Function.update p.ctx w ctx
        bufs := Function.update p.bufs u buf }
      { t with
        phase := Function.update t.phase w .idle
        cells := Function.update t.cells (id u) (some (bufOf units ctx u)) } := by
  have hwork : bufOf units ctx u = buf := by rw [bufOf, hbuf, Option.getD_some]
  refine ⟨h.nextUnit, ?_, ?_, ?_, ?_⟩
  · rw [h.phase]
  · intro v
    by_cases hv : v = w
    · simp [hv]
    · simp [Function.update_of_ne hv, h.flags]
  · intro v
    by_cases hv : v = u
    · simp [hv, hwork]
    · simp [Function.update_of_ne hv, h.bufs]
  · intro v b hb
    by_cases hv : v = u
    · subst hv
      simp only [id, Function.update_self, hwork] at hb
      rw [hbuf, hb]
    · simp only [id, Function.update_of_ne hv] at hb
      exact h.rendered v b hb

/-- A step of the workers is a step of the pool. -/
theorem workStep_of_poolStep {p p' : Pool} {t : Work} (h : p.Matches units ctx t)
    (step : PoolStep units nWorkers p p') :
    ∃ t', WorkStep units ctx nWorkers t t' ∧ p'.Matches units ctx t' := by
  cases step with
  | take worker idle more =>
    exact ⟨_, .take worker (h.phase ▸ idle) (h.nextUnit ▸ take_more more), matches_take h⟩
  | leave worker idle done =>
    exact ⟨_, .leave worker (h.phase ▸ idle) (h.nextUnit ▸ take_done done), matches_leave h⟩
  | @render w u unit ctx' buf worker busy here rendered =>
    rw [h.flags w, captureUnit_eq, Option.map_eq_some_iff] at rendered
    obtain ⟨buf', hbuf, hpair⟩ := rendered
    obtain ⟨rfl, rfl⟩ := Prod.mk.inj hpair
    exact ⟨_, .finish worker (h.phase ▸ busy),
      matches_render h (by rw [here, Option.bind_some, hbuf])⟩

/-- The other way round, when every unit can be rendered. -/
theorem poolStep_of_workStep (hall : ∀ unit ∈ units, unitBuf ctx unit ≠ none) {p : Pool}
    {t t' : Work} (htask : ∀ w u, t.phase w = .busy u → u < units.length)
    (h : p.Matches units ctx t) (step : WorkStep units ctx nWorkers t t') :
    ∃ p', PoolStep units nWorkers p p' ∧ p'.Matches units ctx t' := by
  cases step with
  | @take w u supply worker idle took =>
    by_cases more : t.supply < units.length
    · rw [take_more more] at took
      cases took
      exact ⟨_, .take worker (h.phase ▸ idle) (h.nextUnit ▸ more), matches_take h⟩
    · rw [take_done (Nat.not_lt.mp more)] at took
      cases took
  | @leave w supply worker idle told =>
    by_cases more : t.supply < units.length
    · rw [take_more more] at told
      cases told
    · rw [take_done (Nat.not_lt.mp more)] at told
      cases told
      exact ⟨_, .leave worker (h.phase ▸ idle) (h.nextUnit ▸ Nat.not_lt.mp more), matches_leave h⟩
  | @finish w u worker busy =>
    have hu := htask w u busy
    obtain ⟨buf, hbuf⟩ := Option.ne_none_iff_exists'.mp (hall units[u] (List.getElem_mem hu))
    have here : units[u]? = some units[u] := List.getElem?_eq_getElem hu
    have rendered : captureUnit units[u] (p.ctx w) = some (ctx, buf) := by
      rw [h.flags w, captureUnit_eq, hbuf]
      rfl
    exact ⟨_, .render worker (h.phase ▸ busy) here rendered,
      matches_render h (by rw [here, Option.bind_some, hbuf])⟩

theorem matches_run {p p' : Pool} {t : Work} (h : p.Matches units ctx t)
    (run : Relation.ReflTransGen (PoolStep units nWorkers) p p') :
    ∃ t', Relation.ReflTransGen (WorkStep units ctx nWorkers) t t' ∧ p'.Matches units ctx t' := by
  induction run with
  | refl => exact ⟨t, .refl, h⟩
  | tail _ step ih =>
    obtain ⟨t₁, run₁, h₁⟩ := ih
    obtain ⟨t₂, step₂, h₂⟩ := workStep_of_poolStep h₁ step
    exact ⟨t₂, run₁.tail step₂, h₂⟩

/-- Nobody is told to leave while units are pending. -/
theorem work_inv {t : Work}
    (run : Relation.ReflTransGen (WorkStep units ctx nWorkers) (State.initial 0) t) :
    Inv (Seed2.segmentCounter units.length) id (bufOf units ctx) nWorkers
      (List.range units.length) t := by
  have start : (Seed2.segmentCounter units.length).pending 0 = List.range units.length := by
    rw [List.range_eq_range']
    rfl
  apply Inv.run _ (by rw [List.map_id]; exact List.nodup_range) run
  rw [← start]
  exact Inv.initial 0

theorem matches_run_back (hall : ∀ unit ∈ units, unitBuf ctx unit ≠ none) {t : Work}
    (run : Relation.ReflTransGen (WorkStep units ctx nWorkers) (State.initial 0) t) :
    ∃ p, Relation.ReflTransGen (PoolStep units nWorkers) (Pool.start ctx) p ∧
      p.Matches units ctx t := by
  induction run with
  | refl => exact ⟨_, .refl, matches_start units ctx⟩
  | tail run step ih =>
    obtain ⟨p, runs, h⟩ := ih
    have htask : ∀ w u, _ → u < units.length := fun w u busy =>
      List.mem_range.mp ((work_inv run).mem_tasks ((work_inv run).busy w u busy))
    obtain ⟨p', step', h'⟩ := poolStep_of_workStep hall htask h step
    exact ⟨p', runs.tail step', h'⟩

theorem mapM_eq_some {α β : Type} {f : α → Option β} {l : List α} {r : List β}
    (length : l.length = r.length)
    (h : ∀ i (hi : i < l.length), l[i]?.bind f = some (r.get ⟨i, length ▸ hi⟩)) :
    l.mapM f = some r := by
  induction l generalizing r with
  | nil =>
    obtain rfl := List.length_eq_zero_iff.mp length.symm
    rfl
  | cons a l ih =>
    cases r with
    | nil => cases length
    | cons b r =>
      have ha : f a = some b := h 0 (Nat.succ_pos _)
      have hl := ih (Nat.succ.inj length) fun i hi => h (i + 1) (Nat.succ_lt_succ hi)
      rw [List.mapM_cons, ha, hl]
      rfl

/-- When the threads are joined, every unit was rendered, and its buffer holds its calls. -/
theorem mapM_unitBuf_of_joined {p : Pool} {t : Work} (some_ : 0 < nWorkers)
    (h : p.Matches units ctx t)
    (run : Relation.ReflTransGen (WorkStep units ctx nWorkers) (State.initial 0) t)
    (joined : p.Joined nWorkers) :
    units.mapM (unitBuf ctx) = some ((List.range units.length).map p.bufs) := by
  have gone : t.Over nWorkers := fun w hw => h.phase ▸ joined w hw
  have cells := ((work_inv run).finished some_ gone).2
  apply mapM_eq_some
  · intro u hu
    have hcell : t.cells u = some (bufOf units ctx u) := cells u (List.mem_range.mpr hu)
    rw [h.rendered u _ hcell, List.get_eq_getElem, List.getElem_map, List.getElem_range, h.bufs, hcell,
      Option.getD_some]
  · rw [List.length_map, List.length_range]

/-- Joined runs exist when every unit can be rendered. -/
theorem exists_joined (nWorkers : Nat) (hall : ∀ unit ∈ units, unitBuf ctx unit ≠ none) :
    ∃ (p : Pool) (t : Work),
      Relation.ReflTransGen (PoolStep units nWorkers) (Pool.start ctx) p ∧
      Relation.ReflTransGen (WorkStep units ctx nWorkers) (State.initial 0) t ∧
      p.Matches units ctx t ∧ p.Joined nWorkers := by
  have ready : ∀ next, (Seed2.segmentCounter units.length).take next ≠ none :=
    fun _ => Option.some_ne_none _
  have ends : ∃ t : Work,
      Relation.ReflTransGen (WorkStep units ctx nWorkers) (State.initial 0) t ∧ t.Over nWorkers :=
    exists_run_over ready (State.initial 0)
  obtain ⟨t, run, gone⟩ := ends
  obtain ⟨p, runs, h⟩ := matches_run_back hall run
  exact ⟨p, t, runs, run, h, fun w hw => h.phase ▸ gone w hw⟩

/-- The workers come to an end, however they are scheduled: each of their steps is one that makes the
pool smaller. -/
theorem pool_ends (run : Nat → Pool) (start : run 0 = Pool.start ctx) :
    ¬ ∀ i, PoolStep units nWorkers (run i) (run (i + 1)) := by
  intro steps
  let size (t : Work) : Nat := t.measure (Seed2.segmentCounter units.length) nWorkers
  have smaller : ∀ i, ∃ t, (run i).Matches units ctx t ∧ size t + i ≤ size (State.initial 0) := by
    intro i
    induction i with
    | zero => exact ⟨_, start ▸ matches_start units ctx, le_refl _⟩
    | succ i ih =>
      obtain ⟨t, h, le⟩ := ih
      obtain ⟨t', step, h'⟩ := workStep_of_poolStep h (steps i)
      have lt : size t' < size t := step.measure_lt
      exact ⟨t', h', by omega⟩
  obtain ⟨t, -, le⟩ := smaller (size (State.initial 0) + 1)
  omega

end Workers

/-! ## Parallel and sequential emission -/

theorem ne_none_of_mapM {α β : Type} {f : α → Option β} {l : List α} {r : List β}
    (h : l.mapM f = some r) : ∀ a ∈ l, f a ≠ none := by
  induction l generalizing r with
  | nil => simp
  | cons a l ih =>
    rw [List.mapM_cons, Option.bind_eq_bind, Option.bind_eq_some_iff] at h
    obtain ⟨b, hb, h⟩ := h
    obtain ⟨bs, hbs, -⟩ := Option.bind_eq_some_iff.mp h
    exact List.forall_mem_cons.mpr ⟨by simp [hb], ih hbs⟩

/-- Whatever the number of workers and however they take turns, the files, the place of every
rotation and the byte counter are those of the units emitted one after the other. -/
theorem emitUnitsParallel_iff (cfg : EmitConfig) (threads : Nat) (units : List EmitUnit)
    (ctx : EmitCtx) (out out' : Output) :
    EmitUnitsParallel cfg threads units ctx out out' ↔
      emitUnits cfg units ctx out = some (ctx, out') := by
  have hseq : emitUnits cfg units ctx out = some (ctx, out') ↔
      ∃ bufs, units.mapM (unitBuf ctx) = some bufs ∧ out' = flushEmitBufs cfg bufs out := by
    rw [emitUnits_eq, Option.map_eq_some_iff]
    simp [eq_comm]
  rw [hseq, EmitUnitsParallel]
  by_cases hnone : units.length = 0
  · obtain rfl := List.length_eq_zero_iff.mp hnone
    simp [flushEmitBufs]
  · rw [if_neg hnone]
    by_cases hone : min threads units.length ≤ 1
    · simp only [if_pos hone, captureUnits_eq]
    · simp only [if_neg hone]
      have some_ : 0 < min threads units.length := by omega
      constructor
      · rintro ⟨p, runs, joined, rfl⟩
        obtain ⟨t, run, h⟩ := matches_run (matches_start units ctx) runs
        exact ⟨_, mapM_unitBuf_of_joined some_ h run joined, rfl⟩
      · rintro ⟨bufs, hbufs, rfl⟩
        obtain ⟨p, t, runs, run, h, joined⟩ :=
          exists_joined (min threads units.length) (ne_none_of_mapM hbufs)
        have hsame := mapM_unitBuf_of_joined some_ h run joined
        rw [hbufs] at hsame
        exact ⟨p, runs, joined, by rw [Option.some.inj hsame]⟩

end Gsim.EmitUnits
