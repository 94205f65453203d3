import TransportDeck.Proofs.Input.Front

/-!
# Files that ask for files

The cards of a file come first, and behind them, for each card that asks for a file, the cards of
that file and of the files below it.  `Shelf.Splices` says so without a bound on the work: files may
ask for one another in circles, and what ends the reading is the depth alone.
-/

namespace TransportDeck.Reading

open Text

/-! ## Single files -/

/-- The text that bytes stand for, whatever has been reported before. -/
def decoded (options : ReadOptions) (path : String) (bytes : List Nat) :
    Except ReadError (List Char) :=
  match Files.decode bytes with
  | .ok cs => .ok cs
  | .error m =>
    if options.replaceNonAscii then .ok (Files.decodeLossy bytes)
    else .error (.invalidEncoding path m.message)

def contents (options : ReadOptions) (files : Files.Source) (path : String) :
    Except ReadError (List Char) :=
  match files path with
  | .error fault => .error (.ofFault path fault)
  | .ok .directory => .error (.ofFault path .isDirectory)
  | .ok (.file size bytes) =>
    if size > Limits.fileSize then .error (.fileTooLarge size) else decoded options path bytes

/-- The cards of a file whose lines start in a block, and the number of blocks closed. -/
def cut (place : Place) (block : Block) (ls : List (Nat × String)) :
    Except ReadError (List Card × Nat) :=
  (ls.foldlM (step place) (Scan.start block)).map fun s ↦
    ((flushed place s).cards.toList, (flushed place s).block)

theorem gives_decode (options : ReadOptions) (path : String) (bytes : List Nat) :
    Gives (decode options path bytes) (decoded options path bytes) := by
  unfold decode decoded
  cases Files.decode bytes with
  | ok cs => exact .pure cs
  | error m =>
    dsimp only
    split_ifs
    · exact .pure _
    · exact .fail _ _ _

theorem gives_load (options : ReadOptions) (files : Files.Source) (path : String) :
    Gives (load options files path) (contents options files path) := by
  unfold load contents
  rcases files path with fault | _ | ⟨size, bytes⟩
  · exact .fail _ _ _
  · exact fun _ ↦ rfl
  · dsimp only
    split_ifs
    · exact .fail _ _ _
    · have h := gives_decode options path bytes
      cases hr : decoded options path bytes with
      | ok cs =>
        rw [hr] at h
        exact h.bind ((Gives.log _).bind (.pure cs))
      | error e =>
        rw [hr] at h
        exact h.bind_error

variable (place : Place)

theorem gives_cut (block : Block) (ls : List (Nat × String)) :
    Gives (scan place block ls) (cut place block ls) := by
  have h := Gives.foldlM (gives_scanLine place) ls (Scan.start block)
  unfold cut
  cases hfold : ls.foldlM (step place) (Scan.start block) with
  | ok s =>
    rw [hfold] at h
    exact h.bind ((gives_flush place s).bind (.pure _))
  | error e =>
    rw [hfold] at h
    exact h.bind_error

/-- The cards stand in the file that is scanned. -/
def IsAt (s : Scan) : Prop := ∀ c ∈ s.cards, c.path = place.path ∧ c.depth = place.depth

theorem isAt_start (block : Block) : IsAt place (Scan.start block) := by simp [IsAt, Scan.start]

variable {place}

theorem IsAt.flushed {s : Scan} (h : IsAt place s) : IsAt place (flushed place s) := by
  unfold Reading.flushed
  split_ifs
  · exact h
  · intro c hc
    rcases Array.mem_push.mp hc with hc | rfl
    · exact h c hc
    · exact ⟨rfl, rfl⟩

theorem IsAt.step {s s' : Scan} {l : Nat × String} (h : IsAt place s)
    (hstep : step place s l = .ok s') :
    IsAt place s' := by
  unfold Reading.step at hstep
  split_ifs at hstep
  · exact Except.ok.inj hstep ▸ h
  · exact Except.ok.inj hstep ▸ h.flushed
  · obtain rfl := Except.ok.inj hstep
    change IsAt place (if startsCard s l.2 then Reading.flushed place s else s)
    split_ifs
    · exact h.flushed
    · exact h

theorem IsAt.foldlM {s s' : Scan} {ls : List (Nat × String)} (h : IsAt place s)
    (hfold : ls.foldlM (Reading.step place) s = .ok s') : IsAt place s' := by
  induction ls generalizing s with
  | nil =>
    obtain rfl := Except.ok.inj hfold
    exact h
  | cons l ls ih =>
    rw [List.foldlM_cons] at hfold
    cases hstep : Reading.step place s l with
    | error e =>
      rw [hstep] at hfold
      cases hfold
    | ok t =>
      rw [hstep] at hfold
      exact ih (h.step hstep) hfold

/-- The cards of a file are those of its blocks from the one on in which it starts, and they stand
in it. -/
theorem of_cut {block : Block} {ls : List (Nat × String)} {cards : List Card} {closed : Nat}
    (h : cut place block ls = .ok (cards, closed)) :
    cards.map Card.shape = cardsIn place.width (Limits.blocks - block.index) (ls.map (·.2)) ∧
      ∀ c ∈ cards, c.path = place.path ∧ c.depth = place.depth := by
  have hfull : (Scan.start block).block + (Limits.blocks - block.index) = Limits.blocks := by
    cases block <;> rfl
  have hfold := foldlM_step place hfull ⟨rfl, rfl, rfl⟩ ls
  unfold cut at h
  cases hs : ls.foldlM (step place) (Scan.start block) with
  | error e =>
    rw [hs] at h
    cases h
  | ok s =>
    rw [hs] at h hfold
    obtain ⟨rfl, -⟩ := Prod.mk.inj (Except.ok.inj h)
    have hat : IsAt place (flushed place s) :=
      (IsAt.foldlM (isAt_start place block) hs).flushed
    exact ⟨hfold.2, fun c hc ↦ hat c (Array.mem_toList_iff.mp hc)⟩

/-! ## Nested files -/

/-- What the files that a deck asks for are found and read with. -/
structure Shelf where
  options : ReadOptions
  width : Nat
  files : Files.Source
  directory : String

namespace Shelf

/-- Where the file is that a card asks for. -/
def path (s : Shelf) (request : Block × String) : String := Files.join s.directory request.2

/-- The cards that stand in a file itself.  It is read from its first line, in the block of the card
that asks for it. -/
def cards (s : Shelf) (depth : Nat) (request : Block × String) : Except ReadError (List Card) :=
  (contents s.options s.files (s.path request)).bind fun text ↦
    (cut ⟨s.options, s.width, s.path request, depth⟩ request.1 (numbered s.options text)).map
      Prod.fst

/-- What the files at a depth that are asked for one after the other give, with those below them. -/
inductive Splices (s : Shelf) :
    (depth : Nat) → List (Block × String) → Except ReadError (List Card) → Prop
  | nil {depth} : s.Splices depth [] (.ok [])
  | tooDeep {depth request requests} (hdepth : Limits.includeDepth < depth) :
    s.Splices depth (request :: requests) (.error (.includeTooDeep (s.path request)))
  | unreadable {depth request requests e} (hdepth : depth ≤ Limits.includeDepth)
    (hcards : s.cards depth request = .error e) : s.Splices depth (request :: requests) (.error e)
  | stopped {depth request requests cards e} (hdepth : depth ≤ Limits.includeDepth)
    (hcards : s.cards depth request = .ok cards)
      (hbelow : s.Splices (depth + 1) (targets cards) (.error e)) :
    s.Splices depth (request :: requests) (.error e)
  | cons {depth request requests cards below r} (hdepth : depth ≤ Limits.includeDepth)
    (hcards : s.cards depth request = .ok cards)
      (hbelow : s.Splices (depth + 1) (targets cards) (.ok below))
    (hbehind : s.Splices depth requests r) :
    s.Splices depth (request :: requests) (r.map (cards ++ below ++ ·))

/-- A request that is come to: the files of the requests above it can be read, and so can all that
is asked for before it. -/
inductive Reaches (s : Shelf) : (depth : Nat) → List (Block × String) → Nat → Block × String → Prop
  | here {depth request requests} : s.Reaches depth (request :: requests) depth request
  | behind {depth request requests cards below depth' request'}
      (hdepth : depth ≤ Limits.includeDepth)
    (hcards : s.cards depth request = .ok cards)
      (hbelow : s.Splices (depth + 1) (targets cards) (.ok below))
    (hbehind : s.Reaches depth requests depth' request') :
    s.Reaches depth (request :: requests) depth' request'
  | deeper {depth request requests cards depth' request'} (hdepth : depth ≤ Limits.includeDepth)
    (hcards : s.cards depth request = .ok cards)
      (hbelow : s.Reaches (depth + 1) (targets cards) depth' request') :
    s.Reaches depth (request :: requests) depth' request'

/-- A request that a chain of files leads to, each asking for the next. -/
inductive Nests (s : Shelf) : (depth : Nat) → List (Block × String) → Nat → Block × String → Prop
  | here {depth request requests} (hmem : request ∈ requests) : s.Nests depth requests depth request
  | deeper {depth request requests cards depth' request'} (hmem : request ∈ requests)
    (hcards : s.cards depth request = .ok cards)
      (hbelow : s.Nests (depth + 1) (targets cards) depth' request') :
    s.Nests depth requests depth' request'

/-- Why a request fails by itself. -/
def Refuses (s : Shelf) (depth : Nat) (request : Block × String) (e : ReadError) : Prop :=
  Limits.includeDepth < depth ∧ e = .includeTooDeep (s.path request) ∨
    depth ≤ Limits.includeDepth ∧ s.cards depth request = .error e

/-- The cards of a file that is asked for are those of its lines, from the first one on and in the
block of the card that asks for it. -/
structure IsFile (s : Shelf) (depth : Nat) (request : Block × String) (text : List Char)
    (cards : List Card) : Prop where
  contents_eq : contents s.options s.files (s.path request) = .ok text
  cards_eq : cards.map Card.shape =
    cardsIn s.width (Limits.blocks - request.1.index) (normalLines s.options text)
  isAt : ∀ c ∈ cards, c.path = s.path request ∧ c.depth = depth

/-- Reading what a card asks for. -/
def fetch (s : Shelf) (room depth : Nat) (request : Block × String) : Reading (List Card) :=
  includeFile s.options s.width s.files s.directory room depth request

variable {s : Shelf} {room depth : Nat} {request : Block × String}
  {requests : List (Block × String)}
variable {cards : List Card} {e : ReadError} {r : Except ReadError (List Card)}

theorem exists_isFile (h : s.cards depth request = .ok cards) :
    ∃ text, s.IsFile depth request text cards := by
  unfold Shelf.cards at h
  cases htext : contents s.options s.files (s.path request) with
  | error e =>
    rw [htext] at h
    cases h
  | ok text =>
    rw [htext] at h
    simp only [Except.bind] at h
    cases hcut : cut ⟨s.options, s.width, s.path request, depth⟩
        request.1 (numbered s.options text) with
    | error e =>
      rw [hcut] at h
      cases h
    | ok scanned =>
      rw [hcut] at h
      obtain rfl : scanned.1 = cards := Except.ok.inj h
      obtain ⟨hshapes, hat⟩ := of_cut hcut
      rw [map_snd_numbered] at hshapes
      exact ⟨text, htext, hshapes, hat⟩

theorem gives_fetch_zero :
    Gives (s.fetch 0 depth request) (.error (.includeTooDeep (s.path request))) :=
  .fail _ _ _

/-- A file that cannot be read stops the reading. -/
theorem gives_fetch_of_error (h : s.cards depth request = .error e) :
    Gives (s.fetch (room + 1) depth request) (.error e) := by
  have hload := gives_load s.options s.files (s.path request)
  unfold Shelf.cards at h
  cases htext : contents s.options s.files (s.path request) with
  | error e' =>
    rw [htext] at h hload
    obtain rfl : e' = e := Except.error.inj h
    exact hload.bind_error
  | ok text =>
    rw [htext] at h hload
    have hcut :=
      gives_cut ⟨s.options, s.width, s.path request, depth⟩ request.1 (numbered s.options text)
    simp only [Except.bind] at h
    cases hr : cut ⟨s.options, s.width, s.path request, depth⟩
        request.1 (numbered s.options text) with
    | ok cut =>
      rw [hr] at h
      cases h
    | error e' =>
      rw [hr] at h hcut
      obtain rfl : e' = e := Except.error.inj h
      exact hload.bind ((gives_numberedLines s.options (s.path request) text).bind hcut.bind_error)

theorem gives_fetch_of_ok {r' : Except ReadError (List (List Card))}
    (h : s.cards depth request = .ok cards)
    (hbelow : Gives ((targets cards).mapM (s.fetch room (depth + 1))) r') :
    Gives (s.fetch (room + 1) depth request) (r'.map (cards ++ ·.flatten)) := by
  have hload := gives_load s.options s.files (s.path request)
  unfold Shelf.cards at h
  cases htext : contents s.options s.files (s.path request) with
  | error e' =>
    rw [htext] at h
    cases h
  | ok text =>
    rw [htext] at h hload
    have hcut :=
      gives_cut ⟨s.options, s.width, s.path request, depth⟩ request.1 (numbered s.options text)
    simp only [Except.bind] at h
    cases hr : cut ⟨s.options, s.width, s.path request, depth⟩
        request.1 (numbered s.options text) with
    | error e' =>
      rw [hr] at h
      cases h
    | ok cut =>
      rw [hr] at h hcut
      obtain rfl : cut.1 = cards := Except.ok.inj h
      refine hload.bind ((gives_numberedLines s.options (s.path request) text).bind (hcut.bind ?_))
      cases r' with
      | ok below => exact hbelow.bind (.pure _)
      | error e => exact hbelow.bind_error

/-- Files are spliced as they are read. -/
theorem Splices.gives (h : s.Splices depth requests r)
    (hroom : depth + room = Limits.includeDepth + 1) :
    ∃ r', Gives (requests.mapM (s.fetch room depth)) r' ∧ r'.map List.flatten = r := by
  induction h generalizing room with
  | nil => exact ⟨.ok [], .pure [], rfl⟩
  | tooDeep hdepth =>
    obtain rfl : room = 0 := by omega
    rw [List.mapM_cons]
    exact ⟨_, gives_fetch_zero.bind_error, rfl⟩
  | unreadable hdepth hcards =>
    obtain ⟨room, rfl⟩ : ∃ n, room = n + 1 := ⟨room - 1, by omega⟩
    rw [List.mapM_cons]
    exact ⟨_, (gives_fetch_of_error hcards).bind_error, rfl⟩
  | stopped hdepth hcards _ ih =>
    obtain ⟨room, rfl⟩ : ∃ n, room = n + 1 := ⟨room - 1, by omega⟩
    obtain ⟨r', hbelow, hr'⟩ := @ih room (by omega)
    obtain ⟨e, rfl⟩ : ∃ e, r' = .error e := by
      cases r' with
      | ok below => cases hr'
      | error e => exact ⟨e, rfl⟩
    rw [List.mapM_cons]
    exact ⟨_, (gives_fetch_of_ok hcards hbelow).bind_error, hr'⟩
  | @cons depth request requests cards below r hdepth hcards _ _ ihbelow ihbehind =>
    obtain ⟨room, rfl⟩ : ∃ n, room = n + 1 := ⟨room - 1, by omega⟩
    obtain ⟨r', hbelow, hr'⟩ := @ihbelow room (by omega)
    obtain ⟨r'', hbehind, rfl⟩ := ihbehind hroom
    obtain ⟨files, rfl, rfl⟩ : ∃ files, r' = .ok files ∧ files.flatten = below := by
      cases r' with
      | ok files => exact ⟨files, rfl, Except.ok.inj hr'⟩
      | error e => cases hr'
    rw [List.mapM_cons]
    refine ⟨r''.map ((cards ++ files.flatten) :: ·), (gives_fetch_of_ok hcards hbelow).bind ?_, ?_⟩
    · cases r'' with
      | ok rest => exact hbehind.bind (.pure _)
      | error e => exact hbehind.bind_error
    · cases r'' <;> rfl

/-- Whatever the files ask for, reading them comes to an end. -/
theorem exists_splices (s : Shelf) (depth : Nat) (requests : List (Block × String)) :
    ∃ r, s.Splices depth requests r := by
  induction hroom : Limits.includeDepth + 1 - depth generalizing depth requests with
  | zero =>
    cases requests with
    | nil => exact ⟨_, .nil⟩
    | cons request requests => exact ⟨_, .tooDeep (by omega)⟩
  | succ room ih =>
    have hdepth : depth ≤ Limits.includeDepth := by omega
    induction requests with
    | nil => exact ⟨_, .nil⟩
    | cons request requests ihbehind =>
      obtain ⟨r, hbehind⟩ := ihbehind
      cases hcards : s.cards depth request with
      | error e => exact ⟨_, .unreadable hdepth hcards⟩
      | ok cards =>
        obtain ⟨r', hbelow⟩ := ih (depth + 1) (targets cards) (by omega)
        cases r' with
        | ok below => exact ⟨_, .cons hdepth hcards hbelow hbehind⟩
        | error e => exact ⟨_, .stopped hdepth hcards hbelow⟩

/-- Files are spliced in one way. -/
theorem Splices.unique (h : s.Splices depth requests r) {r' : Except ReadError (List Card)}
    (h' : s.Splices depth requests r') : r = r' := by
  induction h generalizing r' with
  | nil => cases h' with | nil => rfl
  | tooDeep hdepth =>
    cases h' with
    | tooDeep => rfl
    | unreadable | stopped | cons => omega
  | unreadable hdepth hcards =>
    cases h' with
    | tooDeep => omega
    | unreadable _ hcards' => exact hcards.symm.trans hcards' ▸ rfl
    | stopped _ hcards' | cons _ hcards' => cases hcards.symm.trans hcards'
  | stopped hdepth hcards _ ih =>
    cases h' with
    | tooDeep => omega
    | unreadable _ hcards' => cases hcards.symm.trans hcards'
    | stopped _ hcards' hbelow' =>
      obtain rfl := Except.ok.inj (hcards.symm.trans hcards')
      exact Except.error.inj (ih hbelow') ▸ rfl
    | cons _ hcards' hbelow' =>
      obtain rfl := Except.ok.inj (hcards.symm.trans hcards')
      cases ih hbelow'
  | cons hdepth hcards _ _ ihbelow ihbehind =>
    cases h' with
    | tooDeep => omega
    | unreadable _ hcards' => cases hcards.symm.trans hcards'
    | stopped _ hcards' hbelow' =>
      obtain rfl := Except.ok.inj (hcards.symm.trans hcards')
      cases ihbelow hbelow'
    | cons _ hcards' hbelow' hbehind' =>
      obtain rfl := Except.ok.inj (hcards.symm.trans hcards')
      obtain rfl := Except.ok.inj (ihbelow hbelow')
      rw [ihbehind hbehind']

/-! ## Depth -/

/-- No card that is spliced stands deeper than the limit. -/
theorem Splices.depth_le (h : s.Splices depth requests (.ok cards)) :
    ∀ c ∈ cards, c.depth ≤ Limits.includeDepth := by
  generalize hr : (Except.ok cards : Except ReadError (List Card)) = r at h
  induction h generalizing cards with
  | nil =>
    obtain rfl := Except.ok.inj hr
    simp
  | tooDeep | unreadable | stopped => cases hr
  | @cons depth request requests own below r hdepth hcards _ _ ihbelow ihbehind =>
    cases r with
    | error e => cases hr
    | ok rest =>
      obtain rfl := Except.ok.inj hr
      obtain ⟨text, hfile⟩ := exists_isFile hcards
      simp only [List.forall_mem_append]
      exact ⟨⟨fun c hc ↦ (hfile.isAt c hc).2.trans_le hdepth, ihbelow rfl⟩, ihbehind rfl⟩

/-- The error of a splice is that of the first request that fails by itself. -/
theorem splices_error_iff : s.Splices depth requests (.error e) ↔
    ∃ depth' request', s.Reaches depth requests depth' request' ∧ s.Refuses depth' request' e := by
  constructor
  · intro h
    generalize hr : (Except.error e : Except ReadError (List Card)) = r at h
    induction h with
    | nil => cases hr
    | tooDeep hdepth => exact ⟨_, _, .here, .inl ⟨hdepth, Except.error.inj hr⟩⟩
    | unreadable hdepth hcards => exact ⟨_, _, .here, .inr ⟨hdepth, Except.error.inj hr ▸ hcards⟩⟩
    | stopped hdepth hcards _ ih =>
      obtain ⟨depth', request', hreaches, hrefuses⟩ := ih hr
      exact ⟨depth', request', .deeper hdepth hcards hreaches, hrefuses⟩
    | @cons depth request requests own below r hdepth hcards hbelow _ _ ih =>
      cases r with
      | ok rest => cases hr
      | error e' =>
        obtain ⟨depth', request', hreaches, hrefuses⟩ := ih hr
        exact ⟨depth', request', .behind hdepth hcards hbelow hreaches, hrefuses⟩
  · rintro ⟨depth', request', hreaches, hrefuses⟩
    induction hreaches with
    | here =>
      obtain ⟨hdepth, rfl⟩ | ⟨hdepth, hcards⟩ := hrefuses
      · exact .tooDeep hdepth
      · exact .unreadable hdepth hcards
    | behind hdepth hcards hbelow _ ih => exact .cons hdepth hcards hbelow (ih hrefuses)
    | deeper hdepth hcards _ ih => exact .stopped hdepth hcards (ih hrefuses)

/-- Each file of a splice can be read, and so can what it asks for. -/
theorem Splices.exists_of_mem (h : s.Splices depth requests (.ok cards))
    (hmem : request ∈ requests) :
    depth ≤ Limits.includeDepth ∧ ∃ own below, s.cards depth request = .ok own ∧
      s.Splices (depth + 1) (targets own) (.ok below) := by
  induction requests generalizing cards with
  | nil => cases hmem
  | cons first requests ih =>
    generalize hr : (Except.ok cards : Except ReadError (List Card)) = r at h
    cases h with
    | tooDeep | unreadable | stopped => cases hr
    | @cons _ _ _ own below r hdepth hcards hbelow hbehind =>
      cases r with
      | error e => cases hr
      | ok rest =>
        rcases List.mem_cons.mp hmem with rfl | hmem
        · exact ⟨hdepth, own, below, hcards, hbelow⟩
        · exact ih hbehind hmem

/-- What can be spliced has no chain of files that goes deeper than the limit. -/
theorem Splices.le_of_nests {depth' : Nat} {request' : Block × String}
    (hnests : s.Nests depth requests depth' request') (h : s.Splices depth requests (.ok cards)) :
    depth' ≤ Limits.includeDepth := by
  induction hnests generalizing cards with
  | here hmem => exact (h.exists_of_mem hmem).1
  | deeper hmem hcards _ ih =>
    obtain ⟨-, own, below, hown, hbelow⟩ := h.exists_of_mem hmem
    obtain rfl := Except.ok.inj (hown.symm.trans hcards)
    exact ih hbelow

end Shelf

/-! ## Decks -/

variable {options : ReadOptions} {files : Files.Source} {path : String}
  {text : List Char} {width : Nat}
variable {own : List Card} {e : ReadError} {r : Except ReadError (List Card)}

/-- The cards that stand in the file of a deck itself. -/
def ownCards (options : ReadOptions) (path : String) (width : Nat) (text : List Char) :
    Except ReadError (List Card) :=
  if (normalLines options text).all Line.isBlank then .error (.emptyFile path)
  else (cut ⟨options, width, path, 0⟩ .cell ((splitMessage (numbered options text)).2.drop 1)).map
    Prod.fst

theorem Gives.map {α β : Type} {m : Reading α} {r : Except ReadError α} (h : Gives m r)
    (f : α → β) : Gives (f <$> m) (r.map f) := by
  rw [map_eq_pure_bind]
  cases r with
  | ok a => exact h.bind (.pure _)
  | error e => exact h.bind_error

/-- A part of what is read. -/
theorem run_map {α β : Type} {m : Reading α} (f : α → β) (log : ReadLog) :
    ((f <$> m).run log).1 = (m.run log).1.map f := by
  rw [map_eq_pure_bind, run_bind]
  cases (m.run log).1 <;> rfl

theorem Gives.bind_map {α β γ : Type} {m : Reading α} {f : α → Reading β} {g : β → γ} {a : α}
    {r : Except ReadError γ} (hm : Gives m (.ok a)) (hf : Gives (g <$> f a) r) :
    Gives (g <$> (m >>= f)) r := by
  rw [map_bind]
  exact hm.bind hf

/-- The lines of a deck that is not empty, in front of what it asks for. -/
theorem gives_ownLines (hwidth : options.version.width = .ok width)
    (hblank : (normalLines options text).all Line.isBlank = false) {α : Type} {f : RawDeck → α}
    {r : Except ReadError α}
    (h : Gives (f <$> readLines options files path width (numbered options text)) r) :
    Gives (f <$> readText options files path text) r := by
  unfold readText
  rw [hwidth, ← map_snd_numbered, List.all_map] at *
  refine (Gives.pure width).bind_map ((gives_numberedLines options path text).bind_map ?_)
  change Gives (f <$> (if (numbered options text).all (Line.isBlank ·.2) then _ else _)) r
  rw [if_neg (by simpa using hblank)]
  exact h

/-- The cards of a deck are its own ones and what these ask for. -/
theorem gives_readText (hwidth : options.version.width = .ok width)
    (hown : ownCards options path width text = .ok own)
    (hbelow : Shelf.Splices ⟨options, width, files, Files.parent path⟩ 1 (targets own) r) :
    Gives (RawDeck.cards <$> readText options files path text) (r.map (own ++ ·)) := by
  obtain ⟨r', hfiles, rfl⟩ := hbelow.gives (Nat.add_comm 1 Limits.includeDepth)
  unfold ownCards at hown
  split_ifs at hown with hblank
  have hcut :=
    gives_cut ⟨options, width, path, 0⟩ .cell ((splitMessage (numbered options text)).2.drop 1)
  cases hscan : cut ⟨options, width, path, 0⟩
      .cell ((splitMessage (numbered options text)).2.drop 1) with
  | error e =>
    rw [hscan] at hown
    cases hown
  | ok scanned =>
    rw [hscan] at hown hcut
    obtain rfl : scanned.1 = own := Except.ok.inj hown
    refine gives_ownLines hwidth (by simpa using hblank) (hcut.bind_map ?_)
    cases r' with
    | error e => exact (hfiles.bind_error).map _
    | ok below => exact hfiles.bind_map fun log ↦ rfl

/-- A deck whose own cards cannot be read. -/
theorem gives_readText_of_error (hwidth : options.version.width = .ok width)
    (hown : ownCards options path width text = .error e) :
    Gives (RawDeck.cards <$> readText options files path text) (.error e) := by
  unfold ownCards at hown
  split_ifs at hown with hblank
  · obtain rfl := Except.error.inj hown
    rw [← map_snd_numbered, List.all_map] at hblank
    unfold readText
    rw [hwidth]
    refine (Gives.pure width).bind_map ((gives_numberedLines options path text).bind_map ?_)
    change Gives (RawDeck.cards <$>
      (if (numbered options text).all (Line.isBlank ·.2) then _ else _)) _
    rw [if_pos (by simpa using hblank)]
    exact (Gives.fail _ _ _).map _
  · have hcut :=
      gives_cut ⟨options, width, path, 0⟩ .cell ((splitMessage (numbered options text)).2.drop 1)
    cases hscan : cut ⟨options, width, path, 0⟩
        .cell ((splitMessage (numbered options text)).2.drop 1) with
    | ok scanned =>
      rw [hscan] at hown
      cases hown
    | error e' =>
      rw [hscan] at hown hcut
      obtain rfl : e' = e := Except.error.inj hown
      exact gives_ownLines hwidth (by simpa using hblank) (hcut.bind_error.map _)

theorem of_ownCards (h : ownCards options path width text = .ok own) :
    own.map Card.shape =
      cardsIn width Limits.blocks ((frontOf (normalLines options text)).2.drop 1) ∧
      ∀ c ∈ own, c.path = path ∧ c.depth = 0 := by
  unfold ownCards at h
  split_ifs at h
  cases hscan : cut ⟨options, width, path, 0⟩
      .cell ((splitMessage (numbered options text)).2.drop 1) with
  | error e =>
    rw [hscan] at h
    cases h
  | ok scanned =>
    rw [hscan] at h
    obtain rfl : scanned.1 = own := Except.ok.inj h
    have hfront := frontOf_map (numbered options text)
    rw [map_snd_numbered] at hfront
    have hrest : (frontOf (normalLines options text)).2 =
        (splitMessage (numbered options text)).2.map (·.2) := congrArg Prod.snd hfront
    rw [hrest, ← List.map_drop]
    exact of_cut hscan

/-- What is read of a deck whose own cards are known: behind them stands what they ask for. -/
structure Includes (s : Shelf) (own : List Card) (deck : Except ReadError RawDeck) : Prop where
  existsUnique : ∃! r, s.Splices 1 (targets own) r
  cards_iff : ∀ r, s.Splices 1 (targets own) r ↔ deck.map RawDeck.cards = r.map (own ++ ·)
  error_iff : ∀ e, deck = .error e ↔
    ∃ depth request, s.Reaches 1 (targets own) depth request ∧ s.Refuses depth request e
  /-- Where the reading gets to a chain that is too deep, it says so. -/
  tooDeep : ∀ depth request, s.Reaches 1 (targets own) depth request → Limits.includeDepth < depth →
    deck = .error (.includeTooDeep (s.path request))
  le_of_nests : ∀ d depth request, deck = .ok d → s.Nests 1 (targets own) depth request →
    depth ≤ Limits.includeDepth
  depth_le : ∀ d, deck = .ok d → ∀ c ∈ d.cards, c.depth ≤ Limits.includeDepth
  exists_isFile : ∀ depth request cards, s.cards depth request = .ok cards →
    ∃ text, s.IsFile depth request text cards

theorem map_append_injective {r r' : Except ReadError (List Card)}
    (h : r.map (own ++ ·) = r'.map (own ++ ·)) : r = r' := by
  cases r <;> cases r' <;> simp_all [Except.map]

theorem eq_error_of_map {α β : Type} {f : α → β} {r : Except ReadError α} (h : r.map f = .error e) :
    r = .error e := by
  cases r with
  | ok a => cases h
  | error e' => exact congrArg Except.error (Except.error.inj h)

theorem Includes.of_gives {s : Shelf} {deck : Except ReadError RawDeck}
    (hown : ∀ c ∈ own, c.depth = 0)
    (hdeck : ∀ r, s.Splices 1 (targets own) r → deck.map RawDeck.cards = r.map (own ++ ·)) :
    Includes s own deck := by
  obtain ⟨r, hr⟩ := s.exists_splices 1 (targets own)
  have hcards (r') : s.Splices 1 (targets own) r' ↔ deck.map RawDeck.cards = r'.map (own ++ ·) := by
    refine ⟨hdeck r', fun h ↦ ?_⟩
    rwa [← map_append_injective ((hdeck r hr).symm.trans h)]
  have herror (e) : deck = .error e ↔ s.Splices 1 (targets own) (.error e) := by
    rw [hcards]
    cases deck <;> simp [Except.map]
  have hok {d} (hd : deck = .ok d) : ∃ below, s.Splices 1 (targets own) (.ok below) ∧
      d.cards = own ++ below := by
    have h := hdeck r hr
    rw [hd] at h
    cases r with
    | error e => cases h
    | ok below => exact ⟨below, hr, Except.ok.inj h⟩
  refine ⟨⟨r, hr, fun r' hr' ↦ hr'.unique hr⟩, hcards, fun e ↦
    (herror e).trans Shelf.splices_error_iff, ?_, ?_, ?_, fun _ _ _ ↦ Shelf.exists_isFile⟩
  · exact fun depth request hreaches hdepth ↦
      (herror _).mpr (Shelf.splices_error_iff.mpr ⟨depth, request, hreaches, .inl ⟨hdepth, rfl⟩⟩)
  · intro d depth request hd hnests
    obtain ⟨below, hbelow, -⟩ := hok hd
    exact Shelf.Splices.le_of_nests hnests hbelow
  · intro d hd c hc
    obtain ⟨below, hbelow, hcards⟩ := hok hd
    rw [hcards] at hc
    rcases List.mem_append.mp hc with hc | hc
    · rw [hown c hc]
      exact Nat.zero_le _
    · exact hbelow.depth_le c hc

/-- What is read of the text of a deck. -/
structure ReadsDeck (options : ReadOptions) (files : Files.Source) (path : String)
    (text : List Char) (deck : Except ReadError RawDeck) : Prop where
  version_error : ∀ e, options.version.width = .error e → deck = .error e
  own_error : ∀ width e, options.version.width = .ok width →
    ownCards options path width text = .error e → deck = .error e
  own_cards : ∀ width own, ownCards options path width text = .ok own →
    own.map Card.shape = cardsIn width Limits.blocks ((frontOf (normalLines options text)).2.drop 1)
  includes : ∀ width own, options.version.width = .ok width → ownCards options path width text =
    .ok own → Includes ⟨options, width, files, Files.parent path⟩ own deck

theorem readsDeck_readText (options : ReadOptions) (files : Files.Source) (path : String)
    (text : List Char) (log : ReadLog) :
    ReadsDeck options files path text ((readText options files path text).run log).1 where
  version_error e hwidth := by
    unfold readText
    rw [hwidth]
    rfl
  own_error width e hwidth hown :=
    eq_error_of_map ((run_map _ log).symm.trans (gives_readText_of_error hwidth hown log))
  own_cards width own hown := (of_ownCards hown).1
  includes width own hwidth hown :=
    .of_gives (fun c hc ↦ ((of_ownCards hown).2 c hc).2) fun r hr ↦
      (run_map _ log).symm.trans (gives_readText hwidth hown hr log)

namespace ReadsDeck

variable {deck : RawDeck}

/-- The own cards of a deck stand in front of those of the files that they ask for. -/
theorem exists_splices (h : ReadsDeck options files path text (.ok deck))
    (hwidth : options.version.width = .ok width) :
    ∃ own below, ownCards options path width text = .ok own ∧ deck.cards = own ++ below ∧
      (Shelf.mk options width files (Files.parent path)).Splices 1 (targets own) (.ok below) := by
  cases hown : ownCards options path width text with
  | error e => cases h.own_error width e hwidth hown
  | ok own =>
    have hincludes := h.includes width own hwidth hown
    obtain ⟨r, hr, -⟩ := hincludes.existsUnique
    have hcards := (hincludes.cards_iff r).mp hr
    cases r with
    | error e => cases hcards
    | ok below => exact ⟨own, below, rfl, Except.ok.inj hcards, hr⟩

/-- The cards of a deck that asks for no other file are its own. -/
theorem ownCards_eq (h : ReadsDeck options files path text (.ok deck))
    (hwidth : options.version.width = .ok width) (hnone : ∀ c ∈ deck.cards, c.target? = none) :
    ownCards options path width text = .ok deck.cards := by
  obtain ⟨own, below, hown, hcards, hbelow⟩ := h.exists_splices hwidth
  rw [targets_eq_nil fun c hc ↦ hnone c (hcards ▸ List.mem_append_left _ hc)] at hbelow
  cases hbelow
  rw [hown, hcards, List.append_nil]

end ReadsDeck

theorem readsDeck_of_ofText {text : String} {deck : RawDeck}
    (h : RawDeck.ofText options files path text = .ok deck) :
    ReadsDeck options files path text.toList (.ok deck) :=
  h ▸ readsDeck_readText options files path text.toList .empty

/-- Decks are read from texts and from files, whatever the files ask for. -/
structure ReadsInclusions (options : ReadOptions) (files : Files.Source) (path : String) :
    Prop where
  ofText : ∀ text, ReadsDeck options files path text.toList (RawDeck.ofText options files path text)
  ofFile : ∀ text, contents options files path = .ok text →
    ReadsDeck options files path text (RawDeck.ofFile options files path)
  ofFile_error : ∀ width e, options.version.width = .ok width →
    contents options files path = .error e → RawDeck.ofFile options files path = .error e

/-- Reading comes to an end for all files, also those that ask for one another: behind the cards of
each file stand, for each card that asks for a file, those of that file and of the files below it,
and only a chain deeper than the limit is refused. -/
theorem readsInclusions (options : ReadOptions) (files : Files.Source) (path : String) :
    ReadsInclusions options files path where
  ofText text := readsDeck_readText options files path text.toList .empty
  ofFile text htext := by
    have hload := gives_load options files path
    rw [htext] at hload
    cases hwidth : options.version.width with
    | ok width =>
      have hrun : RawDeck.ofFile options files path =
          ((load options files path >>= readText options files path).run .empty).1 := by
        unfold RawDeck.ofFile readFile
        rw [hwidth]
      rw [hrun, hload.run_bind_eq]
      exact readsDeck_readText options files path text _
    | error e =>
      have hrun : RawDeck.ofFile options files path = .error e := by
        unfold RawDeck.ofFile readFile
        rw [hwidth]
        rfl
      rw [hrun]
      have hread := readsDeck_readText options files path text .empty
      rwa [hread.version_error e hwidth] at hread
  ofFile_error width e hwidth herror := by
    have hload := gives_load options files path
    rw [herror] at hload
    unfold RawDeck.ofFile readFile
    rw [hwidth]
    exact hload.bind_error .empty

end TransportDeck.Reading
