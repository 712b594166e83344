import JackCompiler.CommandLine.Session
import JackCompiler.Proofs.Files.Storing
/-!
# A run without what it prints

What a run prints has no influence on anything else. So each part of it performs a function from the
files before it to its answer and the files after it (`Performs`), and the functions are put
together as the parts are.
-/

namespace JackCompiler

namespace CommandLine

variable {β γ : Type}

/-- The path for the code of a source. -/
def Options.codePath (options : Options) (p : Path) : Path :=
  target p (.ofString options.input) (options.output.map .ofString)

/-- The computation answers what the function answers and does to the files what the function does,
whatever it prints. -/
def Performs (x : StateM Session β)
    (f : FileSystem ByteArray → β × FileSystem ByteArray) : Prop :=
  ∀ s : Session, ∃ printed, x.run s = ((f s.files).1, ⟨(f s.files).2, printed⟩)

namespace Performs

variable {x : StateM Session β} {y : β → StateM Session γ}
  {f : FileSystem ByteArray → β × FileSystem ByteArray}
  {g : β → FileSystem ByteArray → γ × FileSystem ByteArray}

theorem pure (b : β) : Performs (Pure.pure b) fun fs => (b, fs) :=
  fun s => ⟨s.printed, rfl⟩

theorem bind (hx : Performs x f) (hy : ∀ b, Performs (y b) (g b)) :
    Performs (x >>= y) fun fs => g (f fs).1 (f fs).2 := by
  intro s
  obtain ⟨printed₁, hx⟩ := hx s
  obtain ⟨printed₂, hy⟩ := hy (f s.files).1 ⟨(f s.files).2, printed₁⟩
  refine ⟨printed₂, ?_⟩
  rw [StateT.run_bind, hx]
  exact hy

theorem congr {k : FileSystem ByteArray → β × FileSystem ByteArray} (hx : Performs x f)
    (h : ∀ fs, f fs = k fs) : Performs x k := by
  intro s
  rw [← h]
  exact hx s

/-- Printing something first makes no difference. -/
theorem print (text : String) (hx : Performs x f) :
    Performs (Host.print text >>= fun _ => x) f :=
  fun s => hx { s with printed := s.printed ++ text }

theorem read (p : Path) :
    Performs (Host.read p) fun fs => (({ files := fs } : Session).readText p, fs) :=
  fun s => ⟨s.printed, rfl⟩

/-- Looking for a directory does not fail. -/
theorem directory? (p : Path) {y : Except CompileError (Option (FileTree Unit)) → StateM Session γ}
    {g : Option (FileTree Unit) → FileSystem ByteArray → γ × FileSystem ByteArray}
    (hy : ∀ tree, Performs (y (.ok tree)) (g tree)) :
    Performs (Host.directory? p >>= y) fun fs =>
      g ((fs.directoryAt? p).map (FileSystem.outline p)) fs :=
  fun s => hy _ s

theorem makeDirectories (p : Path) :
    Performs (Host.makeDirectories p) fun fs => fs.makeDirectories p.ancestors :=
  fun s => ⟨s.printed, rfl⟩

/-- A file that is not written leaves the files as they are. -/
theorem write (p : Path) (text : String) {y : Except FileFault Unit → StateM Session Bool}
    (hok : Performs (y (.ok ())) fun fs => (true, fs))
    (herror : ∀ fault, Performs (y (.error fault)) fun fs => (false, fs)) :
    Performs (Host.write p text >>= y) fun fs => fs.put p text.toUTF8 := by
  intro s
  change ∃ printed, StateT.run (y _) _ = _
  unfold FileSystem.put
  dsimp only
  cases s.files.write p text.toUTF8 with
  | ok files => exact hok { s with files }
  | error fault => exact herror fault s

theorem foldlM {α : Type} {x : β → α → StateM Session β}
    {f : β → α → FileSystem ByteArray → β × FileSystem ByteArray}
    (hx : ∀ b a, Performs (x b a) (f b a)) (as : List α) (b : β) :
    Performs (as.foldlM x b) fun fs => as.foldl (fun now a => f now.1 a now.2) (b, fs) := by
  induction as generalizing b with
  | nil => exact .pure b
  | cons a as ih =>
    rw [List.foldlM_cons]
    exact .bind (hx b a) fun b' => ih b'

end Performs

/-! ## The parts of a run -/

/-- Code is stored as the bytes of its text. -/
theorem performs_writeCode (place : Path) (code : Code) :
    Performs (writeCode place code) fun fs => fs.store place code.text.toUTF8 := by
  unfold writeCode FileSystem.store FileSystem.makeAbove
  simp only [pure_bind, Bool.not_true, Bool.not_false, Bool.false_eq_true, if_false, if_true]
  cases place.parent? with
  | none =>
    refine .write _ _ ?_ fun fault => ?_
    · exact .pure true
    · exact .print _ (.pure false)
  | some dir =>
    dsimp only
    split
    · refine .write _ _ ?_ fun fault => ?_
      · exact .pure true
      · exact .print _ (.pure false)
    · refine (Performs.makeDirectories dir).bind
        (g := fun result fs => if result.isOk then fs.put place code.text.toUTF8 else (false, fs))
        ?_ |>.congr fun fs => ?_
      · rintro (fault | _)
        · exact .print _ (.pure false)
        · refine .write _ _ ?_ fun fault => ?_
          · exact .pure true
          · exact .print _ (.pure false)
      · rcases fs.makeDirectories dir.ancestors with ⟨_ | _, fs⟩ <;> rfl

/-- The files after one source has been compiled, with whether that worked and the labels. -/
def compileFileEffect (options : Options) (labels : Labels) (p : Path)
    (fs : FileSystem ByteArray) : (Bool × Labels) × FileSystem ByteArray :=
  match ({ files := fs } : Session).readText p with
  | .error _ => ((false, labels), fs)
  | .ok source =>
    match compile source labels with
    | .error _ labels => ((false, labels), fs)
    | .ok code labels =>
      let stored := fs.store (options.codePath p) code.text.toUTF8
      ((stored.1, labels), stored.2)

theorem performs_compileFile (options : Options) (labels : Labels) (p : Path) :
    Performs (compileFile options labels p) (compileFileEffect options labels p) := by
  unfold compileFile
  refine .print _ ?_
  refine (Performs.read p).bind (g := fun result fs => match result with
    | .error _ => ((false, labels), fs)
    | .ok source =>
      match compile source labels with
      | .error _ labels => ((false, labels), fs)
      | .ok code labels =>
        let stored := fs.store (options.codePath p) code.text.toUTF8
        ((stored.1, labels), stored.2)) ?_
  rintro (fault | source)
  · exact .print _ (.pure (false, labels))
  · change Performs (match compile source labels with
      | .error e labels => _
      | .ok code labels => _) _
    dsimp only
    cases compile source labels with
    | error e labels => exact .print _ (.pure (false, labels))
    | ok code labels =>
      refine .print _ ((performs_writeCode (options.codePath p) code).bind
        (g := fun written fs => ((written, labels), fs)) fun written => ?_)
      split
      · exact .print _ (.pure (written, labels))
      · exact .pure (written, labels)

/-- One more source after some have been compiled: how many have failed, the labels and the files.
-/
def compileNextEffect (options : Options) (now : (Nat × Labels) × FileSystem ByteArray) (p : Path) :
    (Nat × Labels) × FileSystem ByteArray :=
  let result := compileFileEffect options now.1.2 p now.2
  ((if result.1.1 then now.1.1 else now.1.1 + 1, result.1.2), result.2)

theorem performs_compileAll (options : Options) (sources : List Path) :
    Performs (compileAll options sources) fun fs =>
      let last := sources.foldl (compileNextEffect options) ((0, {}), fs)
      (last.1.1, last.2) := by
  unfold compileAll
  refine (Performs.foldlM (f := fun now p fs => compileNextEffect options (now, fs) p) ?_ sources
    (0, {})).bind (g := fun now fs => (now.1, fs)) fun now => .pure now.1
  rintro ⟨failed, labels⟩ p
  exact (performs_compileFile options labels p).bind
    (g := fun result fs => ((if result.1 then failed else failed + 1, result.2), fs))
    fun result => .pure _

/-- The sources of the input. -/
def Options.sources (options : Options) (fs : FileSystem ByteArray) : List Path :=
  collect (.ofString options.input)
    ((fs.directoryAt? (.ofString options.input)).map (FileSystem.outline (.ofString options.input)))

/-- A run compiles the sources, and its exit status says whether one failed. -/
theorem performs_run (options : Options) :
    Performs (run options) fun fs =>
      let last := (options.sources fs).foldl (compileNextEffect options) ((0, {}), fs)
      (if last.1.1 = 0 then 0 else 1, last.2) := by
  unfold run
  refine .print _ (.print _ ?_)
  refine .directory? (.ofString options.input)
    (g := fun tree fs =>
      let last := (collect (.ofString options.input) tree).foldl (compileNextEffect options)
        ((0, {}), fs)
      (if last.1.1 = 0 then 0 else 1, last.2)) fun tree => ?_
  refine .print _ ((performs_compileAll options (collect (.ofString options.input) tree)).bind
    (g := fun failed fs => (if failed = 0 then 0 else 1, fs)) fun failed => ?_)
  split
  · exact .pure 0
  · exact .print _ (.pure 1)

end CommandLine

end JackCompiler
