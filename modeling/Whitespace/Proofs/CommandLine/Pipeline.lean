import Whitespace.CommandLine.Outcome
import Whitespace.Proofs.CommandLine.Files
import Whitespace.Proofs.Machine.Execution
import Whitespace.Proofs.Text.Decoded

/-!
# The pipeline

The command reads its source and assembles it, then writes the listing, then runs the
program.  If no program comes of the source, nothing is written, and nothing is read
besides (`effects_of_unassembled`).  If one does but its listing cannot be written, the
program is not run (`effects_of_unlisted`).  Otherwise the listing is written, whether the
program is only checked or run, with whatever result (`effects_of_listed`).  How much
detail is asked for decides about nothing but the log (`effects_withVerbose`).

The file system may be any that keeps what it promises.
-/

namespace Whitespace.CommandLine

/-- How a command ends, given the result of its last stage. -/
def Exit.ofResult {ε : Type} : Except ε Unit → Exit
  | .ok () => success
  | .error _ => failure

theorem Exit.ofResult_mapError {ε δ : Type} (f : ε → δ) (r : Except ε Unit) :
    ofResult (r.mapError f) = ofResult r := by
  cases r <;> rfl

/-- What a command leaves behind, apart from what it reports. -/
structure Effects (F : Type) where
  exit : Exit
  files : F
  input : Input
  output : Output

def World.effects {F : Type} (w : World F) (exit : Exit) : Effects F :=
  ⟨exit, w.directory, w.input, w.output⟩

namespace Options

variable {F : Type} [FileSystem F] (o : Options)

def effects (fuel : Nat) (w : World F) : Option (Effects F) :=
  (o.outcome fuel w).map fun (exit, w) => w.effects exit

/-- The paths lead to files, if to anything that can be opened. -/
structure NamesNoDevice (files : F) : Prop where
  source : ∀ device, FileSystem.read files o.program ≠ .ok (.device device)
  listing : ∀ path device, o.emitJson = some path →
    FileSystem.create files path ≠ .ok (.device device)

/-- What is assembled: the content of the source file, or the symbols that its text
stands for. -/
inductive HasSource (files : F) : List UInt8 → Prop
  | raw {content : List UInt8} (read : FileSystem.read files o.program = .ok (.file content))
      (raw : o.mnemonic = false) : HasSource files content
  | mnemonic {text : String}
      (read : FileSystem.read files o.program = .ok (.file (Utf8.encode text)))
      (mnemonic : o.mnemonic = true) : HasSource files (Mnemonic.translate text)

/-- The ways in which no program comes of the source file. -/
inductive Unassembled (files : F) : Prop
  | unread (h : ∀ content, FileSystem.read files o.program ≠ .ok (.file content))
  | notText {content : List UInt8} (read : FileSystem.read files o.program = .ok (.file content))
      (mnemonic : o.mnemonic = true) (h : ∀ text, content ≠ Utf8.encode text)
  | refused {source : List UInt8} {e : AssemblyError} (read : o.HasSource files source)
      (h : assemble source = .error e)

/-- The file that is asked for, if any, can be created and takes in the listing of a
program. -/
def CanList (files : F) (p : Program) : Prop :=
  ∀ path, o.emitJson = some path → ∃ write after,
    FileSystem.create files path = .ok (.file write) ∧
      write (Utf8.encode p.listing) = (.ok (), after)

/-- No file is touched but the one that is asked for. -/
def KeepsOthers (before after : F) : Prop :=
  ∀ other, (∀ path, o.emitJson = some path → ¬ FileSystem.SameFile before path other) →
    (FileSystem.read after other).toOption = (FileSystem.read before other).toOption

/-- What becomes of the files when the listing of a program is written to the one that is
asked for, if any. -/
structure Lists (p : Program) (before after : F) : Prop where
  unasked : o.emitJson = none → after = before
  /-- The file holds the listing and nothing else. -/
  found : ∀ path, o.emitJson = some path →
    FileSystem.read after path = .ok (.file (Utf8.encode p.listing))
  same : ∀ path other, o.emitJson = some path → FileSystem.SameFile before path other →
    FileSystem.read after other = FileSystem.read after path
  others : o.KeepsOthers before after

end Options

/-! ## Actions -/

/-- What changes the world and can fail. -/
abbrev Action (F α : Type) := ExceptT Failure (StateT (World F) Option) α

section

variable {F α β ε : Type} {w w' : World F}

theorem run_bind (x : Action F α) (k : α → Action F β) (w : World F) :
    (x >>= k).run.run w = (x.run.run w).bind fun (r, w') =>
      match r with
      | .ok a => (k a).run.run w'
      | .error e => some (.error e, w') := by
  show ((x.run.run w).bind fun rw => (ExceptT.bindCont k rw.1).run rw.2) = _
  congr 1
  funext ⟨r, w'⟩
  cases r <;> rfl

/-- An action that succeeds goes on in the world that it leaves. -/
theorem run_bind_of_ok {x : Action F α} {k : α → Action F β} {a : α}
    (h : x.run.run w = some (.ok a, w')) : (x >>= k).run.run w = (k a).run.run w' := by
  rw [run_bind, h]
  rfl

/-- An action that fails is the last one, and what it has done to the world stays done. -/
theorem run_bind_of_error {x : Action F α} {k : α → Action F β} {f : Failure}
    (h : x.run.run w = some (.error f, w')) : (x >>= k).run.run w = some (.error f, w') := by
  rw [run_bind, h]
  rfl

theorem run_attempt (failure : ε → Failure) (step : StateT (World F) Option (Except ε α))
    (w : World F) :
    (Options.attempt failure step : Action F α).run.run w =
      (step.run w).map (Prod.map (Except.mapError failure) id) := by
  show ((step.run w).bind fun rw => some (Except.mapError failure rw.1, rw.2)) = _
  cases step.run w <;> rfl

theorem run_attempt_of_eq {failure : ε → Failure} {step : StateT (World F) Option (Except ε α)}
    {r : Except ε α} (h : step.run w = some (r, w')) :
    (Options.attempt failure step : Action F α).run.run w =
      some (r.mapError failure, w') := by
  rw [run_attempt, h]
  rfl

theorem run_attempt_pure (failure : ε → Failure) (step : Except ε α) (w : World F) :
    (Options.attempt failure (pure step) : Action F α).run.run w =
      some (step.mapError failure, w) := rfl

/-! ## Stages -/

variable [FileSystem F] {o : Options} (fuel : Nat)

theorem Options.HasSource.exists_content {files : F} {source : List UInt8}
    (h : o.HasSource files source) :
    ∃ content, FileSystem.read files o.program = .ok (.file content) ∧
      o.source content = .ok source := by
  cases h with
  | raw read raw => exact ⟨_, read, by simp [Options.source, raw]⟩
  | mnemonic read mnemonic => exact ⟨_, read, by simp [Options.source, mnemonic]⟩

theorem Options.source_of_notText {content : List UInt8} (hmnemonic : o.mnemonic = true)
    (h : ∀ text, content ≠ Utf8.encode text) : ∃ e, o.source content = .error (.notText e) := by
  cases hdecode : Utf8.decode content with
  | ok text => exact absurd (Utf8.decode_eq_ok_iff.1 hdecode) (h text)
  | error e => exact ⟨e, by simp [Options.source, hmnemonic, hdecode]⟩

theorem World.readFile_of_file {path : String} {content : List UInt8}
    (h : FileSystem.read w.directory path = .ok (.file content)) :
    w.readFile path = some (.ok content, w) := by
  simp only [readFile, h]

/-- What is neither a file nor a device cannot be read. -/
theorem World.exists_readFile_eq_error {path : String}
    (hdevice : ∀ device, FileSystem.read w.directory path ≠ .ok (.device device))
    (h : ∀ content, FileSystem.read w.directory path ≠ .ok (.file content)) :
    ∃ e, w.readFile path = some (.error e, w) := by
  rcases hread : FileSystem.read w.directory path with e | content | device
  · exact ⟨e, by simp only [readFile, hread]⟩
  · exact absurd hread (h content)
  · exact absurd hread (hdevice device)

theorem run_load_of_file {content : List UInt8}
    (h : FileSystem.read w.directory o.program = .ok (.file content)) :
    (o.load (World.surroundings fuel)).run.run w = some (o.source content, w) := by
  have hread : ((World.surroundings fuel).readFile o.program).run w = some (.ok content, w) :=
    World.readFile_of_file h
  rw [Options.load, run_bind_of_ok (run_attempt_of_eq hread), run_attempt]
  cases o.source content <;> rfl

theorem run_load_of_unread
    (hdevice : ∀ device, FileSystem.read w.directory o.program ≠ .ok (.device device))
    (h : ∀ content, FileSystem.read w.directory o.program ≠ .ok (.file content)) :
    ∃ f, (o.load (World.surroundings fuel)).run.run w = some (.error f, w) := by
  obtain ⟨e, he⟩ := World.exists_readFile_eq_error hdevice h
  have hread : ((World.surroundings fuel).readFile o.program).run w = some (.error e, w) := he
  exact ⟨_, run_bind_of_error (run_attempt_of_eq hread)⟩

theorem run_report_bind (log : Log) (k : Unit → Action F β) (w : World F) :
    (((World.surroundings (F := F) fuel).report log : Action F Unit) >>= k).run.run w =
      (k ()).run.run (w.report log) := rfl

/-- Assembling leaves the world as it is, apart from reports. -/
theorem run_build (source : List UInt8) :
    ∃ errors, (o.build (World.surroundings fuel) source).run.run w =
      some ((assemble source).mapError (.assembling o.program), { w with errors }) := by
  have hbuild : o.build (World.surroundings (F := F) fuel) source = (do
      (World.surroundings (F := F) fuel).report (assembleLogged source { limit := o.level }).2
      let program ← Options.attempt (.assembling o.program) (pure (assemble source))
      (World.surroundings (F := F) fuel).report
        (Log.record { limit := o.level } .info fun _ => .assembled program.size)
      return program) := rfl
  rw [hbuild, run_report_bind]
  have hresult := run_attempt_pure (.assembling o.program) (assemble source)
    (w.report (assembleLogged source { limit := o.level }).2)
  cases h : assemble source with
  | error e =>
    rw [h] at hresult
    exact ⟨_, run_bind_of_error hresult⟩
  | ok p =>
    rw [h] at hresult
    rw [run_bind_of_ok hresult, run_report_bind]
    exact ⟨_, rfl⟩

theorem World.writeFile_of_file {path : String} {content : List UInt8}
    {write : List UInt8 → Except FileError Unit × F}
    (h : FileSystem.create w.directory path = .ok (.file write)) :
    w.writeFile path content =
      ((write content).1.mapError (⟨.ofContent content, ·⟩),
        { w with directory := (write content).2 }) := by
  simp only [writeFile, h, writeOpened]

theorem run_list_of_none {p : Program} (h : o.emitJson = none) :
    (o.list (World.surroundings fuel) p).run.run w = some (.ok (), w) := by
  simp only [Options.list, h]
  rfl

theorem run_list_of_some {p : Program} {path : String} (h : o.emitJson = some path) :
    (o.list (World.surroundings fuel) p).run.run w =
      some (Prod.map (Except.mapError (.writing path)) id
        (w.writeFile path (Utf8.encode p.listing))) := by
  simp only [Options.list, h]
  exact run_attempt_of_eq rfl

theorem Options.keepsOthers_of_create [LawfulFileSystem F] {files : F} {path : String}
    {write : List UInt8 → Except FileError Unit × F} (hjson : o.emitJson = some path)
    (hcreate : FileSystem.create files path = .ok (.file write)) (content : List UInt8) :
    o.KeepsOthers files (write content).2 :=
  fun _ hother => LawfulFileSystem.read_of_not_sameFile hcreate (hother path hjson) content

/-- The listing is found where it is asked for, and nothing else is changed. -/
theorem run_list_of_canList [LawfulFileSystem F] {p : Program} (h : o.CanList w.directory p) :
    ∃ files, o.Lists p w.directory files ∧
      (o.list (World.surroundings fuel) p).run.run w =
        some (.ok (), { w with directory := files }) := by
  cases hjson : o.emitJson with
  | none =>
    have hlists : o.Lists p w.directory w.directory :=
      ⟨fun _ => rfl, by simp [hjson], by simp [hjson], fun _ _ => rfl⟩
    exact ⟨w.directory, hlists, run_list_of_none fuel hjson⟩
  | some path =>
    obtain ⟨write, files, hcreate, hwrite⟩ := h path hjson
    have hothers := Options.keepsOthers_of_create hjson hcreate (Utf8.encode p.listing)
    rw [hwrite] at hothers
    have hsame {other : String} (h : FileSystem.SameFile w.directory path other) :
        FileSystem.read files other = .ok (.file (Utf8.encode p.listing)) :=
      LawfulFileSystem.read_of_sameFile hcreate hwrite h
    have hself := hsame (LawfulFileSystem.sameFile_refl w.directory path)
    refine ⟨files, ⟨by simp [hjson], ?_, ?_, hothers⟩, ?_⟩
    · intro path' hjson'
      rwa [← Option.some.inj (hjson.symm.trans hjson')]
    · intro path' other hjson' h
      obtain rfl : path = path' := Option.some.inj (hjson.symm.trans hjson')
      rw [hsame h, hself]
    · rw [run_list_of_some fuel hjson, World.writeFile_of_file hcreate, hwrite]
      rfl

/-- Where the listing cannot be written, the command fails, and no other file is changed. -/
theorem run_list_of_not_canList [LawfulFileSystem F] {p : Program}
    (hdevice : o.NamesNoDevice w.directory) (h : ¬ o.CanList w.directory p) :
    ∃ f files, o.KeepsOthers w.directory files ∧
      (o.list (World.surroundings fuel) p).run.run w =
        some (.error f, { w with directory := files }) := by
  cases hjson : o.emitJson with
  | none =>
    refine absurd (fun path hpath => ?_) h
    cases hjson.symm.trans hpath
  | some path =>
    rw [run_list_of_some fuel hjson]
    rcases hcreate : FileSystem.create w.directory path with e | write | device
    · refine ⟨.writing path ⟨.creating, e⟩, w.directory, fun _ _ => rfl, ?_⟩
      simp only [World.writeFile, hcreate]
      rfl
    · rcases hwrite : write (Utf8.encode p.listing) with ⟨e | ⟨⟩, files⟩
      · have hothers := Options.keepsOthers_of_create hjson hcreate (Utf8.encode p.listing)
        rw [hwrite] at hothers
        refine ⟨.writing path ⟨.ofContent (Utf8.encode p.listing), e⟩, files, hothers, ?_⟩
        rw [World.writeFile_of_file hcreate, hwrite]
        rfl
      · refine absurd (fun path' hjson' => ?_) h
        obtain rfl : path = path' := Option.some.inj (hjson.symm.trans hjson')
        exact ⟨write, files, hcreate, hwrite⟩
    · exact absurd hcreate (hdevice.listing path device hjson)

theorem run_execute_of_check {p : Program} (h : o.check = true) :
    (o.execute (World.surroundings fuel) p).run.run w = some (.ok (), w) := by
  simp only [Options.execute, h]
  rfl

theorem run_run (p : Program) (level : Level) (w : World F) :
    ((World.surroundings fuel).run p level).run w =
      (p.run fuel ⟨w.input, w.output⟩ { limit := level }).map fun r =>
        (r.result,
          World.report { w with input := r.state.input, output := r.state.output } r.log) := by
  show ((p.run fuel ⟨w.input, w.output⟩ { limit := level }).bind fun r => some (r, w)).bind _ = _
  cases p.run fuel ⟨w.input, w.output⟩ { limit := level } <;> rfl

theorem run_execute_of_run {p : Program} (h : o.check = false) :
    (o.execute (World.surroundings fuel) p).run.run w =
      (p.run fuel ⟨w.input, w.output⟩ { limit := o.level }).map fun r =>
        (r.result.mapError .running,
          World.report { w with input := r.state.input, output := r.state.output } r.log) := by
  simp only [Options.execute, h, Bool.not_false, if_true]
  rw [run_attempt, run_run, Option.map_map]
  rfl

/-! ## The whole command -/

/-- There is a program, or one of the ways in which none comes of the source file. -/
theorem Options.unassembled_or (o : Options) (files : F) :
    o.Unassembled files ∨ ∃ source p, o.HasSource files source ∧ assemble source = .ok p := by
  by_cases hread : ∃ content, FileSystem.read files o.program = .ok (.file content)
  · obtain ⟨content, hread⟩ := hread
    by_cases hsource : ∃ source, o.HasSource files source
    · obtain ⟨source, hsource⟩ := hsource
      cases h : assemble source with
      | error e => exact .inl (.refused hsource h)
      | ok p => exact .inr ⟨source, p, hsource, h⟩
    · cases hmnemonic : o.mnemonic with
      | false => exact absurd ⟨content, .raw hread hmnemonic⟩ hsource
      | true =>
        exact .inl (.notText hread hmnemonic fun text htext =>
          hsource ⟨_, .mnemonic (htext ▸ hread) hmnemonic⟩)
  · exact .inl (.unread (not_exists.1 hread))

theorem run_load_of_hasSource {source : List UInt8} (h : o.HasSource w.directory source) :
    (o.load (World.surroundings fuel)).run.run w = some (.ok source, w) := by
  obtain ⟨content, hread, hsource⟩ := h.exists_content
  rw [run_load_of_file fuel hread, hsource]

/-- Without a program, nothing is done but to report why. -/
theorem perform_of_unassembled
    (hdevice : ∀ device, FileSystem.read w.directory o.program ≠ .ok (.device device))
    (h : o.Unassembled w.directory) :
    ∃ f errors, (o.perform (World.surroundings fuel)).run.run w =
      some (.error f, { w with errors }) := by
  cases h with
  | unread h =>
    obtain ⟨f, hload⟩ := run_load_of_unread fuel hdevice h
    exact ⟨f, w.errors, run_bind_of_error hload⟩
  | notText hread hmnemonic h =>
    obtain ⟨e, hsource⟩ := Options.source_of_notText hmnemonic h
    have hload := run_load_of_file fuel hread
    rw [hsource] at hload
    exact ⟨.notText e, w.errors, run_bind_of_error hload⟩
  | @refused source e hsource h =>
    obtain ⟨errors, hbuild⟩ := run_build (w := w) (o := o) fuel source
    rw [h] at hbuild
    refine ⟨.assembling o.program e, errors, ?_⟩
    rw [Options.perform, run_bind_of_ok (run_load_of_hasSource fuel hsource)]
    exact run_bind_of_error hbuild

/-- Once a program is there, what is left to do is to list it and to run it. -/
theorem perform_of_assembled {source : List UInt8} {p : Program}
    (hsource : o.HasSource w.directory source) (h : assemble source = .ok p) :
    ∃ errors, (o.perform (World.surroundings fuel)).run.run w =
      (do o.list (World.surroundings fuel) p
          o.execute (World.surroundings fuel) p : Action F Unit).run.run { w with errors } := by
  obtain ⟨errors, hbuild⟩ := run_build (w := w) (o := o) fuel source
  rw [h] at hbuild
  refine ⟨errors, ?_⟩
  rw [Options.perform, run_bind_of_ok (run_load_of_hasSource fuel hsource), run_bind_of_ok hbuild]

/-! ## What is left behind -/

theorem effects_eq (o : Options) (w : World F) :
    o.effects fuel w = ((o.perform (World.surroundings fuel)).run.run w).map fun (r, w') =>
      w'.effects (.ofResult r) := by
  show Option.map _ (((o.perform (World.surroundings fuel)).run.run w).bind _) = _
  cases (o.perform (World.surroundings fuel)).run.run w with
  | none => rfl
  | some rw =>
    obtain ⟨r, w'⟩ := rw
    cases r <;> rfl

theorem effects_of_unassembled
    (hdevice : ∀ device, FileSystem.read w.directory o.program ≠ .ok (.device device))
    (h : o.Unassembled w.directory) :
    o.effects fuel w = some ⟨.failure, w.directory, w.input, w.output⟩ := by
  obtain ⟨f, errors, hperform⟩ := perform_of_unassembled fuel hdevice h
  rw [effects_eq, hperform]
  rfl

/-- What a run leaves behind does not depend on how it is logged. -/
theorem map_outcome_run {γ : Type} (p : Program) (console : Console) (log log' : Log)
    (f : Outcome → γ) :
    (p.run fuel console log).map (fun r => f r.outcome) =
      (p.run fuel console log').map fun r => f r.outcome := by
  have h : (p.run fuel console log).map Report.outcome =
      (p.run fuel console log').map Report.outcome := by
    rw [Program.run, Program.run, Machine.outcome_run, Machine.outcome_run]
  simpa [Function.comp_def] using congrArg (Option.map f) h

section

variable [LawfulFileSystem F] {source : List UInt8} {p : Program}
  (hsource : o.HasSource w.directory source) (hp : assemble source = .ok p)

include hsource hp

theorem effects_of_unlisted (hdevice : o.NamesNoDevice w.directory)
    (hlist : ¬ o.CanList w.directory p) :
    ∃ files, o.KeepsOthers w.directory files ∧
      o.effects fuel w = some ⟨.failure, files, w.input, w.output⟩ := by
  obtain ⟨errors, hperform⟩ := perform_of_assembled fuel hsource hp
  obtain ⟨f, files, hothers, hrun⟩ :=
    run_list_of_not_canList fuel (w := { w with errors }) hdevice hlist
  refine ⟨files, hothers, ?_⟩
  rw [effects_eq, hperform, run_bind_of_error hrun]
  rfl

/-- Once the listing is written, the last stage decides. -/
theorem exists_lists_effects (hlist : o.CanList w.directory p) :
    ∃ files errors, o.Lists p w.directory files ∧
      o.effects fuel w =
        ((o.execute (World.surroundings fuel) p).run.run
          { w with directory := files, errors }).map fun (r, w') => w'.effects (.ofResult r) := by
  obtain ⟨errors, hperform⟩ := perform_of_assembled fuel hsource hp
  obtain ⟨files, hlists, hrun⟩ := run_list_of_canList fuel (w := { w with errors }) hlist
  exact ⟨files, errors, hlists, by rw [effects_eq, hperform, run_bind_of_ok hrun]⟩

theorem effects_of_listed (hlist : o.CanList w.directory p) :
    ∃ files, o.Lists p w.directory files ∧
      (o.check = true → o.effects fuel w = some ⟨.success, files, w.input, w.output⟩) ∧
      (o.check = false → ∀ log, o.effects fuel w =
        (p.run fuel ⟨w.input, w.output⟩ log).map fun r =>
          ⟨.ofResult r.result, files, r.state.input, r.state.output⟩) := by
  obtain ⟨files, errors, hlists, heffects⟩ := exists_lists_effects fuel hsource hp hlist
  refine ⟨files, hlists, fun hcheck => ?_, fun hcheck log => ?_⟩
  · rw [heffects, run_execute_of_check fuel hcheck]
    rfl
  · rw [heffects, run_execute_of_run fuel hcheck, Option.map_map]
    trans (p.run fuel ⟨w.input, w.output⟩ { limit := o.level }).map fun r =>
      (⟨.ofResult r.result, files, r.state.input, r.state.output⟩ : Effects F)
    · refine congrArg (Option.map · _) (funext fun r => ?_)
      exact congrArg (World.effects _) (Exit.ofResult_mapError Failure.running r.result)
    · exact map_outcome_run fuel p ⟨w.input, w.output⟩ _ log fun r =>
        (⟨.ofResult r.result, files, r.state.input, r.state.output⟩ : Effects F)

end

end

/-! ## The level of detail -/

section

variable {F : Type}

/-- What remains of the world if nobody listens. -/
def World.unreported (w : World F) : World F := { w with errors := "" }

theorem World.eq_of_unreported {w w' : World F} (h : w.unreported = w'.unreported) :
    w' = { w with errors := w'.errors } := by
  have hdirectory := congrArg World.directory h
  have hinput := congrArg World.input h
  have houtput := congrArg World.output h
  cases w
  cases w'
  simp_all [unreported]

/-- Nothing but what they report tells two actions apart. -/
def Agree {α : Type} (x y : StateT (World F) Option α) : Prop :=
  ∀ (w : World F) (errors : String),
    (x.run w).map (Prod.map id World.unreported) =
      (y.run { w with errors }).map (Prod.map id World.unreported)

namespace Agree

variable {α β ε : Type} {fuel : Nat}

theorem pure (a : α) : Agree (F := F) (pure a) (pure a) := fun _ _ => rfl

theorem bind {x y : StateT (World F) Option α} {k l : α → StateT (World F) Option β}
    (h : Agree x y) (hk : ∀ a, Agree (k a) (l a)) : Agree (x >>= k) (y >>= l) := by
  intro w errors
  have hxy := h w errors
  rw [StateT.run_bind, StateT.run_bind]
  cases hx : x.run w with
  | none =>
    rw [hx, Option.map_none] at hxy
    rw [Option.map_eq_none_iff.1 hxy.symm]
    rfl
  | some r =>
    rw [hx, Option.map_some] at hxy
    obtain ⟨⟨b, w'⟩, hy, heq⟩ := Option.map_eq_some_iff.1 hxy.symm
    obtain ⟨rfl, hw⟩ := Prod.mk.inj heq
    rw [hy, World.eq_of_unreported hw.symm]
    exact hk r.1 r.2 w'.errors

/-- An action that fails goes no further. -/
theorem bindExcept {x y : Action F α} {k l : α → Action F β} (h : Agree x.run y.run)
    (hk : ∀ a, Agree (k a).run (l a).run) : Agree (x >>= k).run (y >>= l).run := by
  refine bind h fun r => ?_
  cases r with
  | ok a => exact hk a
  | error e => exact pure _

theorem attempt {x y : StateT (World F) Option (Except ε α)} (failure : ε → Failure)
    (h : Agree x y) :
    Agree (Options.attempt failure x : Action F α).run
      (Options.attempt failure y : Action F α).run :=
  bind h fun _ => pure _

variable [FileSystem F]

theorem report (log log' : Log) :
    Agree (liftM ((World.surroundings (F := F) fuel).report log) : Action F Unit).run
      (liftM ((World.surroundings (F := F) fuel).report log') : Action F Unit).run :=
  fun _ _ => rfl

theorem readFile (path : String) :
    Agree ((World.surroundings (F := F) fuel).readFile path)
      ((World.surroundings (F := F) fuel).readFile path) := by
  intro w errors
  show (w.readFile path).map _ = (World.readFile { w with errors } path).map _
  simp only [World.readFile]
  rcases FileSystem.read w.directory path with e | content | device
  · rfl
  · rfl
  · cases device <;> rfl

theorem writeFile (path : String) (content : List UInt8) :
    Agree ((World.surroundings (F := F) fuel).writeFile path content)
      ((World.surroundings (F := F) fuel).writeFile path content) := by
  intro w errors
  show some (Prod.map id _ (w.writeFile path content)) =
    some (Prod.map id _ (World.writeFile { w with errors } path content))
  simp only [World.writeFile]
  rcases FileSystem.create w.directory path with e | write | device
  · rfl
  · rfl
  · cases device <;> rfl

theorem run (p : Program) (level level' : Level) :
    Agree ((World.surroundings (F := F) fuel).run p level)
      ((World.surroundings (F := F) fuel).run p level') := by
  intro w errors
  rw [run_run, run_run, Option.map_map, Option.map_map]
  exact map_outcome_run fuel p _ _ _ fun r : Outcome =>
    (r.result, World.unreported { w with input := r.state.input, output := r.state.output })

end Agree

/-- The options with another level of detail. -/
def Options.withVerbose (o : Options) (v : Nat) : Options := { o with verbose := v }

variable [FileSystem F] (o : Options) (v fuel : Nat)

theorem build_agree (source : List UInt8) :
    Agree ((o.withVerbose v).build (World.surroundings (F := F) fuel) source).run
      (o.build (World.surroundings (F := F) fuel) source).run := by
  refine .bindExcept (.report _ _) fun _ => ?_
  refine .bindExcept (.attempt _ (.pure (assemble source))) fun p => ?_
  exact .bindExcept (.report _ _) fun _ => .pure (Except.ok p)

theorem list_agree (p : Program) :
    Agree ((o.withVerbose v).list (World.surroundings (F := F) fuel) p).run
      (o.list (World.surroundings (F := F) fuel) p).run := by
  unfold Options.list
  cases hjson : o.emitJson with
  | none =>
    simp only [Options.withVerbose, hjson]
    exact .pure (Except.ok ())
  | some path => simpa only [Options.withVerbose, hjson] using .attempt _ (.writeFile path _)

theorem execute_agree (p : Program) :
    Agree ((o.withVerbose v).execute (World.surroundings (F := F) fuel) p).run
      (o.execute (World.surroundings (F := F) fuel) p).run := by
  unfold Options.execute
  cases hcheck : o.check with
  | true =>
    simp only [Options.withVerbose, hcheck]
    exact .pure (Except.ok ())
  | false => simpa only [Options.withVerbose, hcheck] using .attempt _ (.run p _ _)

/-- **How much detail is asked for tells nothing apart** but what is reported. -/
theorem perform_agree :
    Agree ((o.withVerbose v).perform (World.surroundings (F := F) fuel)).run
      (o.perform (World.surroundings (F := F) fuel)).run := by
  refine .bindExcept ?_ fun source => ?_
  · exact .bindExcept (.attempt _ (.readFile o.program)) fun content =>
      .attempt _ (.pure (o.source content))
  · refine .bindExcept (build_agree o v fuel source) fun p => ?_
    exact .bindExcept (list_agree o v fuel p) fun _ => execute_agree o v fuel p

theorem effects_withVerbose (w : World F) :
    (o.withVerbose v).effects fuel w = o.effects fuel w := by
  have h := congrArg (Option.map fun (r, w') => World.effects w' (.ofResult r))
    (perform_agree o v fuel w w.errors)
  rw [effects_eq, effects_eq]
  rwa [Option.map_map, Option.map_map] at h

end

/-- **The command goes from stage to stage, and no further than the first that fails**, on
any file system that keeps its promises.  If the source file cannot be read, or is to be
text but is not, or is not assembled, then the command fails, and nothing is written or
read besides.  Otherwise the listing is written where it is asked for, or the command fails
without running the program.  Once the listing is there, the command succeeds if the program
was only to be checked, and else it leaves behind what a run of the program on its streams
does, and succeeds iff that run does.  The level of detail does not matter for any of this. -/
theorem pipeline_all_or_nothing {F : Type} [FileSystem F] [LawfulFileSystem F] {o : Options}
    {w : World F} (h : o.NamesNoDevice w.directory) (fuel : Nat) :
    (o.Unassembled w.directory ∨
      ∃ source p, o.HasSource w.directory source ∧ assemble source = .ok p) ∧
    (o.Unassembled w.directory →
      o.effects fuel w = some ⟨.failure, w.directory, w.input, w.output⟩) ∧
    (∀ source p, o.HasSource w.directory source → assemble source = .ok p →
      (¬ o.CanList w.directory p →
        ∃ files, o.KeepsOthers w.directory files ∧
          o.effects fuel w = some ⟨.failure, files, w.input, w.output⟩) ∧
      (o.CanList w.directory p →
        ∃ files, o.Lists p w.directory files ∧
          (o.check = true → o.effects fuel w = some ⟨.success, files, w.input, w.output⟩) ∧
          (o.check = false → ∀ log, o.effects fuel w =
            (p.run fuel ⟨w.input, w.output⟩ log).map fun r =>
              ⟨.ofResult r.result, files, r.state.input, r.state.output⟩))) ∧
    ∀ v, (o.withVerbose v).effects fuel w = o.effects fuel w := by
  refine ⟨o.unassembled_or _, effects_of_unassembled fuel h.source, fun source p hsource hp => ?_,
    fun v => effects_withVerbose o v fuel w⟩
  exact ⟨effects_of_unlisted fuel hsource hp h, effects_of_listed fuel hsource hp⟩

namespace FaultAfterListing

/-- A program in a directory below the one that the command is started in. -/
def files : FileTree where
  others :=
    (["letter.wsm", "programs", "work", "tmp"],
      .opened (.file (Utf8.encode "SS STSSSSSTL TLSS TLSS"))) ::
    (["programs", "work", "tmp"], .directory) :: systemEntries

def options : Options where
  program := "programs/letter.wsm"
  mnemonic := true
  emitJson := some "/home/letter.json"

/-- Writes a letter and then has none left to write. -/
def program : Program := .ofList [.push 65, .op .outChar, .op .outChar]

theorem namesNoDevice : options.NamesNoDevice files where
  source := nofun
  listing := by
    rintro path device ⟨⟩
    nofun

/-- The run fails, but the listing is there, and so is the letter. -/
theorem left_behind : ∃ after,
    FileSystem.read after "/home/letter.json" = .ok (.file (Utf8.encode program.listing)) ∧
    options.effects 9 { directory := files, input := .ofBytes [0x41] } =
      some ⟨.failure, after, .ofBytes [0x41], { written := #[0x41], flushes := #[1] }⟩ := by
  have hread : FileSystem.read files "programs/letter.wsm" =
      .ok (.file (Utf8.encode "SS STSSSSSTL TLSS TLSS")) := rfl
  have hcreate : FileSystem.create files "/home/letter.json" =
      .ok (.file fun content => (.ok (), files.insert ["letter.json", "home"] content)) := rfl
  obtain ⟨-, -, hassembled, -⟩ := pipeline_all_or_nothing (o := options)
    (w := { directory := files, input := .ofBytes [0x41] }) namesNoDevice 9
  obtain ⟨-, hlisted⟩ := hassembled _ program (.mnemonic hread rfl) rfl
  obtain ⟨after, hlists, -, hrun⟩ := hlisted <| by
    rintro path ⟨⟩
    exact ⟨_, _, hcreate, rfl⟩
  refine ⟨after, hlists.found _ rfl, ?_⟩
  rw [hrun rfl { limit := .warn }]
  rfl

end FaultAfterListing

end Whitespace.CommandLine
