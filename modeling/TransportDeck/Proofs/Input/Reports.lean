import TransportDeck.Proofs.Input.Blocks

/-!
# What reading warns of

Reading warns of characters that are replaced, of lines that are cut and of lines behind the last
block, and of nothing else.  Warnings are only ever added, so this is an invariant of the log.
-/

namespace TransportDeck

/-- The codes of the warnings that reading gives. -/
def Code.ofReading : List Code := [.replacedCharacter, .lineOverrun, .extraBlocks]

/-- All warnings in the log are those of reading. -/
def ReadLog.IsOfReading (log : ReadLog) : Prop := ∀ w ∈ log.warnings, w.code ∈ Code.ofReading

namespace Reading

variable {α β σ : Type}

/-- The work adds none but the warnings of reading. -/
def Reports (m : Reading α) : Prop := ∀ log : ReadLog, log.IsOfReading → (m.run log).2.IsOfReading

namespace Reports

/-! ## Sequences -/

theorem pure (a : α) : Reports (Pure.pure a) := fun _ h ↦ h

theorem throw (e : ReadError) : Reports (throw e : Reading α) := fun _ h ↦ h

/-- A run reports with codes of reading if both of its halves do. -/
theorem bind {m : Reading α} {f : α → Reading β} (hm : m.Reports) (hf : ∀ a, (f a).Reports) :
    (m >>= f).Reports := fun log h ↦ by
  rw [run_bind]
  have hlog := hm log h
  cases (m.run log).1 with
  | ok a => exact hf a _ hlog
  | error e => exact hlog

/-- Runs along a list report with codes of reading if each of them does. -/
theorem mapM {f : α → Reading β} (h : ∀ a, (f a).Reports) (as : List α) : (as.mapM f).Reports := by
  induction as with
  | nil => exact pure []
  | cons a as ih =>
    rw [List.mapM_cons]
    exact (h a).bind fun _ ↦ ih.bind fun _ ↦ pure _

/-- A fold reports with codes of reading if each of its steps does. -/
theorem foldlM {f : σ → α → Reading σ} (h : ∀ s a, (f s a).Reports) (as : List α) (s : σ) :
    (as.foldlM f s).Reports := by
  induction as generalizing s with
  | nil => exact pure s
  | cons a as ih =>
    rw [List.foldlM_cons]
    exact (h s a).bind ih

/-! ## Single steps -/

/-- Logging an event is no report. -/
theorem log (e : Event) : (Reading.log e).Reports := fun _ h ↦ h

theorem fail (e : ReadError) (message : String) (values : List (String × String)) :
    (Reading.fail (α := α) e message values).Reports := (log _).bind fun _ ↦ throw e

/-- A warning with a code of reading may be given. -/
theorem warn {w : Warning} (hw : w.code ∈ Code.ofReading) : (Reading.warn w).Reports :=
  fun log h v hv ↦ by
  rcases Array.mem_push.mp hv with hv | rfl
  · exact h v hv
  · exact hw

/-! ## Files and lines -/

/-- A text that is not proper is reported as a matter of reading. -/
theorem decode (options : ReadOptions) (path : String) (bytes : List Nat) :
    (Reading.decode options path bytes).Reports := by
  unfold Reading.decode
  split
  · exact pure _
  · split_ifs
    · exact pure _
    · exact fail _ _ _

theorem load (options : ReadOptions) (files : Files.Source) (path : String) :
    (Reading.load options files path).Reports := by
  unfold Reading.load
  split
  · exact fail _ _ _
  · exact throw _
  · split_ifs
    · exact fail _ _ _
    · exact (decode _ _ _).bind fun _ ↦ (log _).bind fun _ ↦ pure _

/-- A character that is replaced is reported as a matter of reading. -/
theorem numberedLines (options : ReadOptions) (path : String) (text : List Char) :
    (Reading.numberedLines options path text).Reports := by
  refine mapM (fun ⟨line, number⟩ ↦ bind ?_ fun _ ↦ pure _) _
  unfold normalizeLine
  dsimp only
  split_ifs
  · exact (warn (by simp [Warning.inFile, Warning.of, Code.ofReading])).bind fun _ ↦ pure _
  · exact pure _

/-- A line that is cut is reported as a matter of reading. -/
theorem cutLine (options : ReadOptions) (width : Nat) (path : String) (number : Nat)
    (line : String) : (Reading.cutLine options width path number line).Reports := by
  unfold Reading.cutLine
  dsimp only
  split_ifs
  · exact pure _
  · exact (warn (by simp [Warning.inFile, Warning.of, Code.ofReading])).bind fun _ ↦ pure _

/-! ## Cards -/

variable (place : Place)

theorem flush (s : Scan) : (Reading.flush place s).Reports := by
  unfold Reading.flush
  split_ifs
  · exact pure _
  · dsimp only
    split
    · exact (log _).bind fun _ ↦ pure _
    · exact (pure ()).bind fun _ ↦ pure _

/-- A line behind the blocks is reported as a matter of reading. -/
theorem skipLine (number : Nat) (line : String) : (Reading.skipLine place number line).Reports := by
  have hget : (get : Reading ReadLog).Reports := fun _ h ↦ h
  have hreported : (modify fun r ↦ { r with extraReported := true } : Reading Unit).Reports :=
    fun _ h ↦ h
  unfold Reading.skipLine
  refine hget.bind fun _ ↦ ?_
  split_ifs
  · exact hreported.bind fun _ ↦ warn (by simp [Warning.inFile, Warning.of, Code.ofReading])
  · exact pure _

/-- A line in vertical format is refused, and the refusal is one of reading. -/
theorem addLine (number : Nat) (line : String) (s : Scan) :
    (Reading.addLine place number line s).Reports := by
  unfold Reading.addLine
  dsimp only
  split_ifs
  · exact (flush _ _).bind fun _ ↦ fail _ _ _
  · exact (flush _ _).bind fun _ ↦ (cutLine _ _ _ _ _).bind fun _ ↦ pure _
  · exact (pure s).bind fun _ ↦ fail _ _ _
  · exact (pure s).bind fun _ ↦ (cutLine _ _ _ _ _).bind fun _ ↦ pure _

theorem scanLine (s : Scan) (numbered : Nat × String) :
    (Reading.scanLine place s numbered).Reports := by
  obtain ⟨number, line⟩ := numbered
  unfold Reading.scanLine
  dsimp only
  split_ifs
  · exact (skipLine _ _ _).bind fun _ ↦ pure _
  · exact (flush _ _).bind fun _ ↦ (log _).bind fun _ ↦ pure _
  · exact addLine _ _ _ _

/-- Scanning the lines of a text reports with codes of reading only. -/
theorem scan (block : Block) (lines : List (Nat × String)) :
    (Reading.scan place block lines).Reports :=
  (foldlM (scanLine place) lines _).bind fun _ ↦ (flush place _).bind fun _ ↦ pure _

/-! ## Decks -/

/-- Whatever is included, however deep, it reports with codes of reading only. -/
theorem includeFile (options : ReadOptions) (width : Nat) (files : Files.Source)
    (directory : String) (room depth : Nat) (target : Block × String) :
    (Reading.includeFile options width files directory room depth target).Reports := by
  induction room generalizing depth target with
  | zero => exact fail _ _ _
  | succ room ih =>
    exact (load _ _ _).bind fun _ ↦ (numberedLines _ _ _).bind fun _ ↦ (scan _ _ _).bind fun _ ↦
      (mapM (ih _) _).bind fun _ ↦ pure _

end Reports

/-- The warnings of a deck are those of reading. -/
theorem code_mem_of_readText {options : ReadOptions} {files : Files.Source} {path : String}
    {text : List Char} {raw : RawDeck}
    (h : ((readText options files path text).run .empty).1 = .ok raw) :
    ∀ w ∈ raw.warnings, w.code ∈ Code.ofReading := by
  have hempty : ReadLog.empty.IsOfReading := by simp [ReadLog.IsOfReading, ReadLog.empty]
  rcases hrun : (readText options files path text).run .empty with ⟨outcome, log⟩
  rw [hrun] at h
  obtain rfl : outcome = .ok raw := h
  unfold readText at hrun
  cases hwidth : options.version.width with
  | error e =>
    rw [hwidth] at hrun
    cases hrun
  | ok width =>
  rw [hwidth] at hrun
  change (numberedLines options path text >>= _).run _ = _ at hrun
  obtain ⟨lines, log₂, hlines, hrun⟩ := exists_of_run_bind hrun
  have h₂ := Reports.numberedLines options path text _ hempty
  rw [hlines] at h₂
  split_ifs at hrun with hblank
  · cases hrun
  · rcases hsplit : splitMessage lines with ⟨message, rest⟩
    rw [hsplit] at hrun
    dsimp only at hrun
    obtain ⟨⟨cards, closed⟩, log₃, hscan, hrun⟩ := exists_of_run_bind hrun
    have h₃ := Reports.scan ⟨options, width, path, 0⟩ .cell (rest.drop 1) _ h₂
    rw [hscan] at h₃
    obtain ⟨below, log₄, hbelow, hrun⟩ := exists_of_run_bind hrun
    have hincludes :=
      Reports.includeFile options width files (Files.parent path) Limits.includeDepth 1
    have h₄ := Reports.mapM hincludes (targets cards) _ h₃
    rw [hbelow] at h₄
    obtain rfl : _ = raw := Except.ok.inj (congrArg Prod.fst hrun)
    exact fun w hw ↦ h₄ w (Array.mem_toList_iff.mp hw)

end Reading

end TransportDeck
