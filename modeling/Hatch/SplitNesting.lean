import Hatch.SplitRouting

/-!
# Badly nested sources

The first line of a source at which its markers are not nested, or are nested deeper than the
stack, is a line like the others to the loop: `PushStack` reports a full stack to no one, and the
names are compared only where `PopStack` fails, which it does not, since `sqlite3.c` lies below all
names. The one error exit that such a line can take is that of a file that cannot be opened.
-/

namespace Hatch.Split

open ByteLayout (Bytes)
open CString

/-! ### Nesting -/

def nameOn (line : Bytes) : Option Bytes :=
  match strrchr dot line with
  | none => none
  | some len =>
      if line.length - len < 2 then none
      else
        match strrchr blank ((line.drop 1).take len) with
        | none => none
        | some b => some (((line.drop 1).take len).drop (b + 1) ++ [line.getD (len + 1) 0])

/-- The text that is copied to `g_tmp_buf` leaves room for a terminator. -/
def nameFits (line : Bytes) : Bool :=
  match strrchr dot line with
  | none => true
  | some len => line.length - len < 2 || len < tmpBufSize

inductive Mark where
  | plain
  | beginFile (name : Bytes)
  | endOf (name : Bytes)
  deriving DecidableEq

/-- What a line means; a marker without a name means nothing. -/
def mark (line : Bytes) : Mark :=
  match nameOn line with
  | none => .plain
  | some name =>
      if beginMark <:+: line then .beginFile name
      else if endMark <:+: line then .endOf name
      else .plain

/-- Only the innermost file is closed, and the files that are open fit the stack, where
`sqlite3.c` has an entry of its own. -/
def Mark.Allowed (opened : List Bytes) : Mark → Prop
  | .plain => True
  | .beginFile _ => opened.length + 1 < stackLevelSize
  | .endOf name => opened.head? = some name

instance (opened : List Bytes) : DecidablePred (Mark.Allowed opened)
  | .plain => inferInstanceAs (Decidable True)
  | .beginFile _ => inferInstanceAs (Decidable (opened.length + 1 < stackLevelSize))
  | .endOf name => inferInstanceAs (Decidable (opened.head? = some name))

def Mark.after (opened : List Bytes) : Mark → List Bytes
  | .plain => opened
  | .beginFile name => name :: opened
  | .endOf _ => opened.tail

def markOf (chunk : Bytes) : Mark := mark (ByteLayout.cstr chunk 0)

def Orderly : List Bytes → List Bytes → Prop
  | _, [] => True
  | opened, c :: cs => (markOf c).Allowed opened ∧ Orderly ((markOf c).after opened) cs

def openedAfter (opened chunks : List Bytes) : List Bytes :=
  chunks.foldl (fun opened c => (markOf c).after opened) opened

/-- A text with the first line that is badly nested. -/
structure Misnested where
  text : Bytes
  before : List Bytes
  chunk : Bytes
  later : List Bytes
  reads_eq : reads text = before ++ chunk :: later
  orderly : Orderly [] before
  not_allowed : ¬ (markOf chunk).Allowed (openedAfter [] before)

def runUpTo (openable : Bytes → Bool) (files : Bytes → Bytes) (chunks : List Bytes) :
    Except Stop State :=
  match openDesFile openable (start files) desFileName with
  | (false, s) => .error (.errEnd s)
  | (true, s) => chunks.foldlM (round openable) (pushStack s desFileName)

/-- The loop is left at the line, and at most this line is still written. -/
def Misnested.Detected (m : Misnested) (openable : Bytes → Bool) (files : Bytes → Bytes) : Prop :=
  ∃ s s', runUpTo openable files m.before = .ok s ∧
    round openable s m.chunk = .error (.errEnd s') ∧
    main openable files m.text = .ok s' ∧
    ∃ ws, s'.writes = s.writes ++ ws ∧ ws.length ≤ 1

/-- `GetFileName` is called only on lines for which `g_tmp_buf` is large enough. -/
def Readable (chunk : Bytes) : Prop :=
  beginMark <:+: ByteLayout.cstr chunk 0 ∨ endMark <:+: ByteLayout.cstr chunk 0 →
    nameFits (ByteLayout.cstr chunk 0) = true

def Passes (openable : Bytes → Bool) (chunk : Bytes) : Prop :=
  Readable chunk ∧ ∀ name, markOf chunk = .beginFile name → openable name = true

variable {openable : Bytes → Bool} {opened : List Bytes} {s : State} {line c : Bytes}

/-! ### Names -/

theorem getFileName_of_fits (h : nameFits line = true) : getFileName line = .ok (nameOn line) := by
  unfold nameFits at h
  unfold getFileName nameOn
  cases hdot : strrchr dot line with
  | none => rfl
  | some len =>
      rw [hdot] at h
      dsimp only at h ⊢
      by_cases hshort : line.length - len < 2
      · rw [if_pos hshort, if_pos hshort]
      · have hlt : len < tmpBufSize := by simpa [hshort] using h
        rw [if_neg hshort, if_neg hshort, if_neg (Nat.not_le.mpr hlt),
          if_neg (Nat.not_lt.mpr hlt.le), if_neg (Nat.ne_of_gt hlt)]
        cases strrchr blank ((line.drop (0 + 1)).take len) <;> rfl

theorem getFileName_of_not_fits (h : nameFits line = false) :
    ∃ e, getFileName line = .error e := by
  unfold nameFits at h
  unfold getFileName
  cases hdot : strrchr dot line with
  | none =>
      rw [hdot] at h
      cases h
  | some len =>
      rw [hdot] at h
      simp only [Bool.or_eq_false_iff, decide_eq_false_iff_not] at h
      dsimp only
      rw [if_neg h.1]
      by_cases hlt : tmpBufSize < len
      · exact ⟨_, if_pos hlt⟩
      · have heq : tmpBufSize = len := by omega
        exact ⟨_, by rw [if_neg hlt, if_pos heq]⟩

theorem length_nameOn {name : Bytes} (hfits : nameFits line = true)
    (hname : nameOn line = some name) : name.length < tmpBufSize := by
  have hget := getFileName_of_fits hfits
  rw [hname] at hget
  obtain ⟨len, j, hlen, -, hblank, rfl⟩ := exists_of_getFileName hget
  have hj := lt_length_of_strrchr hblank
  have htake := List.length_take_le len (line.drop 1)
  rw [List.length_append, List.length_drop, List.length_singleton]
  omega

/-! ### One round -/

/-- The state of the loop where the files of `opened` are open. -/
structure Nests (openable : Bytes → Bool) (opened : List Bytes) (s : State) : Prop where
  stack : s.stack = opened ++ [desFileName]
  depth : opened.length < stackLevelSize
  short : ∀ name ∈ s.stack, name.length < tmpBufSize
  openable : ∀ name ∈ s.stack, openable name = true
  fpDes : s.fileEnd = false → s.fpDes.isSome = true

theorem exists_top (opened : List Bytes) :
    ∃ top rest, opened ++ [desFileName] = top :: rest ∧ rest.length = opened.length := by
  cases opened with
  | nil => exact ⟨desFileName, [], rfl, rfl⟩
  | cons name opened => exact ⟨name, opened ++ [desFileName], rfl, by simp⟩

/-- A file of the stack can be opened again. -/
theorem resume_nests (h : Nests openable opened s) :
    ∃ s', resume openable s = .ok s' ∧ Nests openable opened s' ∧ s'.fpDes.isSome = true ∧
      s'.writes = s.writes := by
  cases hend : s.fileEnd with
  | false => exact ⟨s, by simp [resume, hend], h, h.fpDes hend, rfl⟩
  | true =>
      obtain ⟨top, rest, hcons, hrest⟩ := exists_top opened
      have hstack := h.stack.trans hcons
      have hmem : top ∈ s.stack := by simp [hstack]
      have hroom : ¬ stackLevelSize ≤ rest.length := by
        have := h.depth
        omega
      refine ⟨{ s with fileEnd := false, tmpBuf := top, fpDes := some top }, ?_, ?_, rfl, rfl⟩
      · simp [resume, hend, popStack, hstack, h.short top hmem, openDesFile, h.openable top hmem,
          pushStack, hroom]
      · exact ⟨h.stack, h.depth, h.short, h.openable, fun _ => rfl⟩

theorem fputs_ok (line : Bytes) (h : s.fpDes.isSome = true) :
    ∃ s', fputs s line = .ok s' ∧ s'.stack = s.stack ∧ s'.fpDes = s.fpDes := by
  obtain ⟨name, hname⟩ := Option.isSome_iff_exists.mp h
  refine ⟨{ s with
      files := Function.update s.files name (s.files name ++ line)
      writes := s.writes ++ [(name, line)] }, ?_, rfl, rfl⟩
  simp only [fputs, hname]

/-- A name that does not fit is looked for where there is a marker. -/
theorem markers_unreadable (openable : Bytes → Bool) (s : State)
    (hmark : beginMark <:+: line ∨ endMark <:+: line) (hfits : nameFits line = false) :
    ∃ e, markers openable s line = .error (.fault e) := by
  obtain ⟨e, he⟩ := getFileName_of_not_fits hfits
  unfold markers
  by_cases hb : beginMark <:+: line
  · exact ⟨e, by rw [if_pos hb, he]⟩
  · exact ⟨e, by rw [if_neg hb, endFile, if_pos (hmark.resolve_left hb), he]⟩

theorem endFile_plain (hread : endMark <:+: line → nameFits line = true)
    (hname : nameOn line = none) : endFile s line = .ok s := by
  unfold endFile
  by_cases he : endMark <:+: line
  · rw [if_pos he, getFileName_of_fits (hread he), hname]
  · rw [if_neg he]

theorem markers_plain (hread : beginMark <:+: line ∨ endMark <:+: line → nameFits line = true)
    (hmark : mark line = .plain) : markers openable s line = .ok s := by
  unfold mark at hmark
  unfold markers
  cases hname : nameOn line with
  | none =>
      have hend := endFile_plain (s := s) (fun he => hread (.inr he)) hname
      by_cases hb : beginMark <:+: line
      · rw [if_pos hb, getFileName_of_fits (hread (.inl hb)), hname]
        exact hend
      · rw [if_neg hb, hend]
  | some name =>
      rw [hname] at hmark
      dsimp only at hmark
      split_ifs at hmark with hb he
      rw [if_neg hb, endFile, if_neg he]

theorem mark_eq_beginFile {name : Bytes} (h : mark line = .beginFile name) :
    nameOn line = some name ∧ beginMark <:+: line := by
  unfold mark at h
  cases hname : nameOn line with
  | none =>
      rw [hname] at h
      cases h
  | some found =>
      rw [hname] at h
      dsimp only at h
      split_ifs at h with hb
      cases h
      exact ⟨rfl, hb⟩

theorem mark_eq_endOf {name : Bytes} (h : mark line = .endOf name) :
    nameOn line = some name ∧ ¬ beginMark <:+: line ∧ endMark <:+: line := by
  unfold mark at h
  cases hname : nameOn line with
  | none =>
      rw [hname] at h
      cases h
  | some found =>
      rw [hname] at h
      dsimp only at h
      split_ifs at h with hb he
      cases h
      exact ⟨rfl, hb, he⟩

/-- The name is pushed if there is room, and the file is opened anyway. -/
theorem markers_beginFile (openable : Bytes → Bool) (s : State) {name : Bytes}
    (hfits : nameFits line = true) (hmark : mark line = .beginFile name) :
    markers openable s line =
      if openable name then
        .ok { pushStack { s with tmpBuf := name } name with fpDes := some name }
      else .error (.errEnd { pushStack { s with tmpBuf := name } name with fpDes := none }) := by
  obtain ⟨hname, hb⟩ := mark_eq_beginFile hmark
  have htmp : (pushStack { s with tmpBuf := name } name).tmpBuf = name := by
    unfold pushStack
    split <;> rfl
  unfold markers openDesFile
  rw [if_pos hb, getFileName_of_fits hfits, hname]
  dsimp only
  rw [htmp]
  cases openable name <;> rfl

/-- Whatever the name on the line is, the uppermost entry of the stack is taken off. -/
theorem markers_endOf {name top : Bytes} {rest : List Bytes} (hfits : nameFits line = true)
    (hmark : mark line = .endOf name) (hstack : s.stack = top :: rest)
    (htop : top.length < tmpBufSize) :
    markers openable s line =
      .ok { s with stack := rest, tmpBuf := top, fileEnd := true } := by
  obtain ⟨hname, hb, he⟩ := mark_eq_endOf hmark
  unfold markers endFile popStack
  rw [if_neg hb, if_pos he, getFileName_of_fits hfits, hname]
  simp only [hstack, if_pos htop]

theorem round_of_resume {s₁ : State} (hr : resume openable s = .ok s₁) :
    round openable s c =
      (markers openable s₁ (ByteLayout.cstr c 0) >>= fun s => fputs s (ByteLayout.cstr c 0)) := by
  unfold round
  rw [hr]
  rfl

/-- A round after which the nesting is that of `opened`, if it is a nesting. -/
def GoesOn (openable : Bytes → Bool) (opened : List Bytes) (P : Prop)
    (r : Except Stop State) : Prop :=
  ∃ s', r = .ok s' ∧ (P → Nests openable opened s')

theorem goesOn_of_markers {s₁ s₂ : State} {P : Prop} (hr : resume openable s = .ok s₁)
    (hm : markers openable s₁ (ByteLayout.cstr c 0) = .ok s₂) (hfp : s₂.fpDes.isSome = true)
    (hn : P → Nests openable opened s₂) : GoesOn openable opened P (round openable s c) := by
  obtain ⟨s₃, hput, hstack, hfp₃⟩ := fputs_ok (ByteLayout.cstr c 0) hfp
  refine ⟨s₃, ?_, fun hP => ?_⟩
  · rw [round_of_resume hr, hm]
    exact hput
  · have h₂ := hn hP
    exact ⟨hstack.trans h₂.stack, h₂.depth, hstack ▸ h₂.short, hstack ▸ h₂.openable,
      fun _ => hfp₃ ▸ hfp⟩

theorem round_plain (h : Nests openable opened s) (hread : Readable c)
    (hmark : markOf c = .plain) :
    GoesOn openable opened True (round openable s c) := by
  obtain ⟨s₁, hr, h₁, hfp, -⟩ := resume_nests h
  exact goesOn_of_markers hr (markers_plain hread hmark) hfp fun _ => h₁

theorem round_endOf {name : Bytes} (h : Nests openable opened s) (hread : Readable c)
    (hmark : markOf c = .endOf name) :
    GoesOn openable opened.tail (opened ≠ []) (round openable s c) := by
  obtain ⟨s₁, hr, h₁, hfp, -⟩ := resume_nests h
  obtain ⟨top, rest, hcons, hrest⟩ := exists_top opened
  have hstack := h₁.stack.trans hcons
  have hfits := hread (.inr (mark_eq_endOf hmark).2.2)
  have htop := h₁.short top (by simp [hstack])
  refine goesOn_of_markers hr (markers_endOf hfits hmark hstack htop) hfp fun hne => ?_
  obtain ⟨name, opened, rfl⟩ := List.exists_cons_of_ne_nil hne
  have htail : rest = opened ++ [desFileName] := (List.cons.inj hcons).2.symm
  exact {
    stack := htail
    depth := Nat.lt_of_succ_lt h.depth
    short := fun n hn => h₁.short n (by rw [hstack]; exact List.mem_cons_of_mem _ hn)
    openable := fun n hn => h₁.openable n (by rw [hstack]; exact List.mem_cons_of_mem _ hn)
    fpDes := fun hend => by cases hend }

theorem round_beginFile {name : Bytes} (h : Nests openable opened s) (hread : Readable c)
    (hmark : markOf c = .beginFile name) (hopen : openable name = true) :
    GoesOn openable (name :: opened) (opened.length + 1 < stackLevelSize)
      (round openable s c) := by
  obtain ⟨s₁, hr, h₁, -, -⟩ := resume_nests h
  obtain ⟨hname, hb⟩ := mark_eq_beginFile hmark
  have hfits := hread (.inl hb)
  have hm := markers_beginFile openable s₁ hfits hmark
  rw [if_pos hopen] at hm
  refine goesOn_of_markers hr hm rfl fun hroom => ?_
  have hpush : pushStack { s₁ with tmpBuf := name } name =
      { s₁ with tmpBuf := name, stack := name :: s₁.stack } := by
    have hlen : ¬ stackLevelSize ≤ s₁.stack.length := by
      rw [h₁.stack, List.length_append, List.length_singleton]
      omega
    simp [pushStack, hlen]
  rw [hpush]
  exact {
    stack := congrArg (name :: ·) h₁.stack
    depth := hroom
    short := List.forall_mem_cons.mpr ⟨length_nameOn hfits hname, h₁.short⟩
    openable := List.forall_mem_cons.mpr ⟨hopen, h₁.openable⟩
    fpDes := fun _ => rfl }

theorem round_not_openable {name : Bytes} (h : Nests openable opened s) (hread : Readable c)
    (hmark : markOf c = .beginFile name) (hopen : openable name = false) :
    ∃ s', round openable s c = .error (.errEnd s') ∧ s'.writes = s.writes := by
  obtain ⟨s₁, hr, -, -, hw⟩ := resume_nests h
  obtain ⟨-, hb⟩ := mark_eq_beginFile hmark
  have hm := markers_beginFile openable s₁ (hread (.inl hb)) hmark
  rw [hopen] at hm
  refine ⟨{ pushStack { s₁ with tmpBuf := name } name with fpDes := none }, ?_, ?_⟩
  · rw [round_of_resume hr, hm]
    rfl
  · exact (pushStack_writes _ _).trans hw

theorem round_unreadable (h : Nests openable opened s) (hread : ¬ Readable c) :
    ∃ e, round openable s c = .error (.fault e) := by
  obtain ⟨s₁, hr, -⟩ := resume_nests h
  obtain ⟨hmark, hfits⟩ := Classical.not_imp.mp hread
  obtain ⟨e, he⟩ := markers_unreadable openable s₁ hmark (by simpa using hfits)
  exact ⟨e, by rw [round_of_resume hr, he]; rfl⟩

/-- What a round can do at any line, allowed or not. -/
theorem round_cases (h : Nests openable opened s) (c : Bytes) :
    (¬ Readable c ∧ ∃ e, round openable s c = .error (.fault e)) ∨
    (Readable c ∧ (∃ name, markOf c = .beginFile name ∧ openable name = false) ∧
      ∃ s', round openable s c = .error (.errEnd s') ∧ s'.writes = s.writes) ∨
    (Passes openable c ∧ GoesOn openable ((markOf c).after opened) ((markOf c).Allowed opened)
      (round openable s c)) := by
  by_cases hread : Readable c
  · cases hmark : markOf c with
    | plain =>
        have hgo := round_plain h hread hmark
        exact .inr (.inr ⟨⟨hread, fun name hn => by rw [hmark] at hn; cases hn⟩, hgo⟩)
    | beginFile name =>
        cases hopen : openable name with
        | false =>
            have hstop := round_not_openable h hread hmark hopen
            exact .inr (.inl ⟨hread, ⟨name, rfl, hopen⟩, hstop⟩)
        | true =>
            have hpass : Passes openable c := by
              refine ⟨hread, fun n hn => ?_⟩
              rw [hmark] at hn
              cases hn
              exact hopen
            exact .inr (.inr ⟨hpass, round_beginFile h hread hmark hopen⟩)
    | endOf name =>
        obtain ⟨s', hround, hn⟩ := round_endOf h hread hmark
        refine .inr (.inr ⟨⟨hread, fun n hn => by rw [hmark] at hn; cases hn⟩, s', hround, ?_⟩)
        intro hallowed
        apply hn
        rintro rfl
        cases hallowed
  · exact .inl ⟨hread, round_unreadable h hread⟩

/-- The error exit is that of a file that cannot be opened. -/
theorem begins_of_errEnd {s' : State} (h : Nests openable opened s)
    (hround : round openable s c = .error (.errEnd s')) :
    Readable c ∧ ∃ name, markOf c = .beginFile name ∧ openable name = false := by
  rcases round_cases h c with ⟨-, e, he⟩ | ⟨hread, hbegin, -⟩ | ⟨-, s₁, hs₁, -⟩
  · rw [he] at hround
    cases hround
  · exact ⟨hread, hbegin⟩
  · rw [hs₁] at hround
    cases hround

/-! ### Whole runs -/

theorem foldlM_orderly (chunks : List Bytes) (h : Nests openable opened s)
    (ho : Orderly opened chunks) :
    ((∀ c ∈ chunks, Passes openable c) ∧ ∃ s', chunks.foldlM (round openable) s = .ok s' ∧
      Nests openable (openedAfter opened chunks) s') ∨
    ((¬ ∀ c ∈ chunks, Passes openable c) ∧
      ∃ e, chunks.foldlM (round openable) s = .error e) := by
  induction chunks generalizing opened s with
  | nil => exact .inl ⟨List.forall_mem_nil _, s, rfl, h⟩
  | cons c chunks ih =>
      rw [List.foldlM_cons, List.forall_mem_cons]
      rcases round_cases h c with ⟨hread, e, hround⟩ | ⟨-, ⟨name, hmark, hopen⟩, s', hround, -⟩ |
        ⟨hpass, s', hround, hn⟩
      · rw [hround]
        exact .inr ⟨fun hall => hread hall.1.1, _, rfl⟩
      · rw [hround]
        refine .inr ⟨fun hall => ?_, _, rfl⟩
        rw [hall.1.2 name hmark] at hopen
        cases hopen
      · rw [hround]
        rcases ih (hn ho.1) ho.2 with ⟨hall, hrest⟩ | ⟨hall, hrest⟩
        · exact .inl ⟨⟨hpass, hall⟩, hrest⟩
        · exact .inr ⟨fun h => hall h.2, hrest⟩

theorem nests_start (files : Bytes → Bytes) (h : openable desFileName = true) :
    Nests openable [] (pushStack { start files with fpDes := some desFileName } desFileName) where
  stack := rfl
  depth := by decide
  short := List.forall_mem_singleton.mpr (by decide)
  openable := List.forall_mem_singleton.mpr h
  fpDes := fun _ => rfl

theorem runUpTo_eq (files : Bytes → Bytes) (chunks : List Bytes)
    (h : openable desFileName = true) :
    runUpTo openable files chunks =
      chunks.foldlM (round openable)
        (pushStack { start files with fpDes := some desFileName } desFileName) := by
  unfold runUpTo openDesFile
  rw [if_pos h]

theorem main_eq_runUpTo (openable : Bytes → Bool) (files : Bytes → Bytes) (text : Bytes) :
    main openable files text = atErrEnd (runUpTo openable files (reads text)) := by
  unfold main runUpTo
  rcases openDesFile openable (start files) desFileName with ⟨opens, s⟩
  cases opens <;> rfl

theorem runUpTo_append {files : Bytes → Bytes} {chunks more : List Bytes} {s : State}
    (h : runUpTo openable files chunks = .ok s) :
    runUpTo openable files (chunks ++ more) = more.foldlM (round openable) s := by
  unfold runUpTo at h ⊢
  split at h
  · cases h
  · rw [List.foldlM_append, h]
    rfl

/-- A line that is detected opens a file that cannot be opened. -/
theorem Misnested.Detected.begins {m : Misnested} {files : Bytes → Bytes}
    (h : m.Detected openable files) :
    (openable desFileName = true ∧ ∀ c ∈ m.before, Passes openable c) ∧
      Readable m.chunk ∧ ∃ name, markOf m.chunk = .beginFile name ∧ openable name = false := by
  obtain ⟨s, s', hrun, hround, -, -⟩ := h
  have hdes : openable desFileName = true := by
    by_contra hne
    unfold runUpTo openDesFile at hrun
    rw [if_neg hne] at hrun
    cases hrun
  rw [runUpTo_eq files m.before hdes] at hrun
  rcases foldlM_orderly m.before (nests_start files hdes) m.orderly with
    ⟨hall, s₁, hs₁, hn⟩ | ⟨-, e, he⟩
  · obtain rfl : s₁ = s := Except.ok.inj (hs₁.symm.trans hrun)
    exact ⟨⟨hdes, hall⟩, begins_of_errEnd hn hround⟩
  · rw [he] at hrun
    cases hrun

/-- At its first badly nested line a text is left just if the line opens a file that cannot be
opened. -/
theorem misnested_detected_iff (m : Misnested) (openable : Bytes → Bool)
    (files : Bytes → Bytes) :
    m.Detected openable files ↔
      (openable desFileName = true ∧ ∀ c ∈ m.before, Passes openable c) ∧
        Readable m.chunk ∧ ∃ name, markOf m.chunk = .beginFile name ∧ openable name = false := by
  refine ⟨Misnested.Detected.begins, ?_⟩
  rintro ⟨⟨hdes, hall⟩, hread, name, hmark, hopen⟩
  rcases foldlM_orderly m.before (nests_start files hdes) m.orderly with
    ⟨-, s, hs, hn⟩ | ⟨hnot, -⟩
  · rw [← runUpTo_eq files m.before hdes] at hs
    obtain ⟨s', hround, hw⟩ := round_not_openable hn hread hmark hopen
    refine ⟨s, s', hs, hround, ?_, [], by simp [hw], by simp⟩
    rw [main_eq_runUpTo, m.reads_eq, runUpTo_append hs, List.foldlM_cons, hround]
    rfl
  · exact absurd hall hnot

/-! ### Three badly nested texts -/

theorem reads_lines (ls : List Bytes) (h : ∀ l ∈ ls, newline ∉ l ∧ l.length < 8191) :
    reads (ls.flatMap (· ++ [newline])) = ls.map (· ++ [newline]) := by
  induction ls with
  | nil => rfl
  | cons l ls ih =>
      obtain ⟨⟨hl, hlen⟩, hls⟩ := List.forall_mem_cons.mp h
      have hline : newline ∉ (l ++ [newline]).dropLast := by rwa [List.dropLast_concat]
      have hshort : (l ++ [newline]).length ≤ 8191 := by
        rw [List.length_append, List.length_singleton]
        exact hlen
      rw [List.flatMap_cons, reads_append hl, ih hls, List.map_cons,
        reads_line hline (by simp), List.take_of_length_le hshort,
        List.drop_eq_nil_of_le hshort]
      rfl

def Misnested.ofLines (before : List Bytes) (line : Bytes) (later : List Bytes)
    (hlines : ∀ l ∈ before ++ line :: later, newline ∉ l ∧ l.length < 8191)
    (horderly : Orderly [] (before.map (· ++ [newline])))
    (hnot : ¬ (markOf (line ++ [newline])).Allowed
      (openedAfter [] (before.map (· ++ [newline])))) : Misnested where
  text := (before ++ line :: later).flatMap (· ++ [newline])
  before := before.map (· ++ [newline])
  chunk := line ++ [newline]
  later := later.map (· ++ [newline])
  reads_eq := by rw [reads_lines _ hlines, List.map_append, List.map_cons]
  orderly := horderly
  not_allowed := hnot

/-- The line `/************** Begin file a.c ****/`. -/
def beginA : Bytes := (Line.beginFile nameA 4).bytes

def endA : Bytes := (Line.endOf nameA 4).bytes

/-- The line `/************** End of b.c ****/`. -/
def endB : Bytes := endMark ++ blank :: ([98, dot, 99] ++ closing 4)

def lineX : Bytes := [120]

theorem markOf_beginA : markOf (beginA ++ [newline]) = .beginFile nameA.bytes := by decide

def wrongEnd : Misnested :=
  .ofLines [beginA] endB [lineX] (by decide) ⟨by decide, trivial⟩ (by decide)

def strayEnd : Misnested := .ofLines [] endA [lineX] (by decide) trivial (by decide)

theorem orderly_replicate {name : Bytes} (hmark : markOf c = .beginFile name) (n : ℕ)
    (hroom : opened.length + n < stackLevelSize) :
    Orderly opened (List.replicate n c) ∧
      (openedAfter opened (List.replicate n c)).length = opened.length + n := by
  induction n generalizing opened with
  | zero => exact ⟨trivial, rfl⟩
  | succ n ih =>
      have hroom' : (name :: opened).length + n < stackLevelSize := by
        rw [List.length_cons]
        omega
      obtain ⟨horderly, hlen⟩ := ih hroom'
      have hallowed : (Mark.beginFile name).Allowed opened := by
        change opened.length + 1 < stackLevelSize
        omega
      have hafter : openedAfter opened (List.replicate (n + 1) c) =
          openedAfter (name :: opened) (List.replicate n c) := by
        rw [openedAfter, List.replicate_succ, List.foldl_cons, hmark]
        rfl
      rw [hafter, hlen, List.replicate_succ, Orderly, hmark]
      exact ⟨⟨hallowed, horderly⟩, by rw [List.length_cons]; omega⟩

/-- One file more is opened than the stack has room for. -/
def tooDeep : Misnested :=
  .ofLines (List.replicate 31 beginA) beginA [lineX] (by
      intro l hl
      rcases List.mem_append.mp hl with hl | hl
      · rw [List.eq_of_mem_replicate hl]
        decide
      · rcases List.mem_pair.mp hl with rfl | rfl <;> decide)
    (by
      rw [List.map_replicate]
      exact (orderly_replicate markOf_beginA 31 (by decide)).1)
    (by
      rw [List.map_replicate, markOf_beginA]
      change ¬ (openedAfter [] (List.replicate 31 (beginA ++ [newline]))).length + 1 <
        stackLevelSize
      rw [(orderly_replicate markOf_beginA 31 (by decide)).2]
      decide)

theorem not_detected_openAll (m : Misnested) (files : Bytes → Bytes) :
    ¬ m.Detected openAll files := by
  intro h
  obtain ⟨-, -, name, -, hopen⟩ := h.begins
  cases hopen

/-- None of the texts is left at its bad line, and what follows the wrong end marker is written. -/
theorem misnested_undetected :
    (¬ wrongEnd.Detected openAll fun _ => []) ∧ (¬ strayEnd.Detected openAll fun _ => []) ∧
      (¬ tooDeep.Detected openAll fun _ => []) ∧
      (main openAll (fun _ => []) wrongEnd.text).map State.writes =
        .ok [(nameA.bytes, beginA ++ [newline]), (nameA.bytes, endB ++ [newline]),
          (desFileName, lineX ++ [newline])] :=
  ⟨not_detected_openAll _ _, not_detected_openAll _ _, not_detected_openAll _ _, rfl⟩

end Hatch.Split
