import Hatch.SplitLines

/-!
# The splitter routes a source that fits its buffers

`Follows` relates the state of the loop to the files open at a place of the source. A chunk
keeps it, so a line that fits is written to its file as a whole. A line that does not fit is
written elsewhere in part, or leaves the buffer, and what was written stays written.
-/

namespace Hatch.Split

open ByteLayout (Bytes)

def openAll (_ : Bytes) : Bool := true

/-- The loop stands where the files of `opened` are open. Between an end line and the next
chunk the file to write to is still to be opened. -/
structure Follows (files : Bytes → Bytes) (opened : List FileName) (s : State) : Prop where
  stack : s.stack = opened.map FileName.bytes ++ [desFileName]
  depth : opened.length ≤ 31
  short : ∀ n ∈ opened, n.bytes.length ≤ 486
  fpDes : s.fileEnd = false → s.fpDes = some (innermost opened)
  content : ∀ name, s.files name = files name ++ contentOf name s.writes

variable {files : Bytes → Bytes} {opened : List FileName} {n : FileName} {s : State} {b c : Bytes}
  {l : Line}

/-! ### One chunk -/

theorem cstr_eq_self (h : 0 ∉ c) : ByteLayout.cstr c 0 = c := by
  rw [ByteLayout.cstr, List.drop_zero, List.takeWhile_eq_self_iff]
  exact fun x hx => bne_iff_ne.mpr fun h0 => h (h0 ▸ hx)

theorem round_eq {s₁ s₂ s₃ : State} (hz : 0 ∉ c) (hr : resume openAll s = .ok s₁)
    (hm : markers openAll s₁ c = .ok s₂) (hp : fputs s₂ c = .ok s₃) :
    round openAll s c = .ok s₃ := by
  unfold round
  rw [cstr_eq_self hz, hr]
  change (markers openAll s₁ c >>= fun s => fputs s c) = _
  rw [hm]
  exact hp

theorem innermost_cons (opened : List FileName) :
    ∃ rest, opened.map FileName.bytes ++ [desFileName] = innermost opened :: rest ∧
      rest.length = opened.length := by
  cases opened with
  | nil => exact ⟨[], rfl, rfl⟩
  | cons n opened => exact ⟨opened.map FileName.bytes ++ [desFileName], rfl, by simp⟩

theorem length_innermost (h : ∀ n ∈ opened, n.bytes.length ≤ 486) :
    (innermost opened).length ≤ 486 := by
  cases opened with
  | nil => decide
  | cons n opened => exact h n List.mem_cons_self

theorem resume_follows (h : Follows files opened s) :
    ∃ s', resume openAll s = .ok s' ∧ Follows files opened s' ∧ s'.fileEnd = false ∧
      s'.fpDes = some (innermost opened) ∧ s'.writes = s.writes := by
  cases hend : s.fileEnd with
  | false =>
      refine ⟨s, ?_, h, hend, h.fpDes hend, rfl⟩
      simp [resume, hend]
  | true =>
      obtain ⟨rest, hcons, hrest⟩ := innermost_cons opened
      have hstack := h.stack.trans hcons
      have hname : (innermost opened).length < tmpBufSize :=
        Nat.lt_of_le_of_lt (length_innermost h.short) (by decide)
      have hroom : ¬ stackLevelSize ≤ rest.length := by
        have := h.depth
        unfold stackLevelSize
        omega
      refine ⟨{ s with fileEnd := false, tmpBuf := innermost opened,
                       fpDes := some (innermost opened) }, ?_, ?_, rfl, rfl, rfl⟩
      · simp [resume, hend, popStack, hstack, hname, openDesFile, openAll, pushStack, hroom]
      · exact ⟨h.stack, h.depth, h.short, fun _ => rfl, h.content⟩

theorem fputs_follows {g : Bytes} (h : Follows files opened s) (hg : s.fpDes = some g) :
    ∃ s', fputs s c = .ok s' ∧ Follows files opened s' ∧ s'.writes = s.writes ++ [(g, c)] := by
  refine ⟨{ s with
      files := Function.update s.files g (s.files g ++ c), writes := s.writes ++ [(g, c)] },
    by simp only [fputs, hg], ⟨h.stack, h.depth, h.short, h.fpDes, fun name => ?_⟩, rfl⟩
  change Function.update s.files g (s.files g ++ c) name =
    files name ++ contentOf name (s.writes ++ [(g, c)])
  rw [contentOf_concat, ← List.append_assoc, ← h.content]
  by_cases hname : g = name
  · subst hname
    rw [Function.update_self, if_pos rfl]
  · rw [Function.update_of_ne (Ne.symm hname), if_neg hname, List.append_nil]

theorem round_unmarked (h : Follows files opened s) (hc : Unmarked c) :
    ∃ s', round openAll s c = .ok s' ∧ Follows files opened s' ∧
      s'.writes = s.writes ++ [(innermost opened, c)] := by
  obtain ⟨s₁, hr, h₁, -, hfp, hw⟩ := resume_follows h
  have hm : markers openAll s₁ c = .ok s₁ := by
    rw [markers, if_neg hc.not_begin, endFile, if_neg hc.not_end]
  obtain ⟨s₂, hp, h₂, hw₂⟩ := fputs_follows (c := c) h₁ hfp
  exact ⟨s₂, round_eq hc.zero_notMem hr hm hp, h₂, by rw [hw₂, hw]⟩

theorem round_begin (h : Follows files opened s) (hz : 0 ∉ c) (hmark : beginMark <:+: c)
    (hname : getFileName c = .ok (some n.bytes)) (hdepth : opened.length < 31)
    (hshort : n.bytes.length ≤ 486) :
    ∃ s', round openAll s c = .ok s' ∧ Follows files (n :: opened) s' ∧
      s'.writes = s.writes ++ [(n.bytes, c)] := by
  obtain ⟨s₁, hr, h₁, -, -, hw⟩ := resume_follows h
  have hroom : ¬ stackLevelSize ≤ s₁.stack.length := by
    rw [h₁.stack, List.length_append, List.length_map, List.length_singleton]
    unfold stackLevelSize
    omega
  have hm : markers openAll s₁ c = .ok { s₁ with
      tmpBuf := n.bytes, stack := n.bytes :: s₁.stack, fpDes := some n.bytes } := by
    simp [markers, hmark, hname, pushStack, hroom, openDesFile, openAll]
  have h₂ : Follows files (n :: opened) { s₁ with
      tmpBuf := n.bytes, stack := n.bytes :: s₁.stack, fpDes := some n.bytes } :=
    ⟨congrArg (n.bytes :: ·) h₁.stack, hdepth,
      List.forall_mem_cons.mpr ⟨hshort, h.short⟩, fun _ => rfl, h₁.content⟩
  obtain ⟨s₃, hp, h₃, hw₃⟩ := fputs_follows (c := c) h₂ rfl
  exact ⟨s₃, round_eq hz hr hm hp, h₃, hw₃.trans (congrArg (· ++ [(n.bytes, c)]) hw)⟩

/-- The end marker is written to the file it closes; only the stack says that it is closed. -/
theorem round_end {name : Bytes} (h : Follows files (n :: opened) s) (hz : 0 ∉ c)
    (hbegin : ¬ beginMark <:+: c) (hmark : endMark <:+: c)
    (hname : getFileName c = .ok (some name)) :
    ∃ s', round openAll s c = .ok s' ∧ Follows files opened s' ∧
      s'.writes = s.writes ++ [(n.bytes, c)] := by
  obtain ⟨s₁, hr, h₁, -, hfp, hw⟩ := resume_follows h
  have hlen : n.bytes.length < tmpBufSize :=
    Nat.lt_of_le_of_lt (h.short n List.mem_cons_self) (by decide)
  have hm : markers openAll s₁ c = .ok { s₁ with
      tmpBuf := n.bytes, stack := opened.map FileName.bytes ++ [desFileName],
      fileEnd := true } := by
    simp [markers, hbegin, endFile, hmark, hname, popStack, h₁.stack, hlen]
  have h₂ : Follows files opened { s₁ with
      tmpBuf := n.bytes, stack := opened.map FileName.bytes ++ [desFileName],
      fileEnd := true } :=
    ⟨rfl, Nat.le_of_succ_le h.depth, fun m hm => h.short m (List.mem_cons_of_mem n hm),
      nofun, h₁.content⟩
  obtain ⟨s₃, hp, h₃, hw₃⟩ := fputs_follows (c := c) h₂ hfp
  exact ⟨s₃, round_eq hz hr hm hp, h₃, hw₃.trans (congrArg (· ++ [(n.bytes, c)]) hw)⟩

/-- Chunks without a marker go to the innermost file. -/
theorem foldlM_unmarked (cs : List Bytes) (h : Follows files opened s)
    (hcs : ∀ c ∈ cs, Unmarked c) :
    ∃ s', cs.foldlM (round openAll) s = .ok s' ∧ Follows files opened s' ∧
      s'.writes = s.writes ++ cs.map fun c => (innermost opened, c) := by
  induction cs generalizing s with
  | nil => exact ⟨s, rfl, h, by simp⟩
  | cons c cs ih =>
      obtain ⟨s₁, hr, h₁, hw₁⟩ := round_unmarked h (hcs c List.mem_cons_self)
      obtain ⟨s₂, hf, h₂, hw₂⟩ := ih h₁ fun d hd => hcs d (List.mem_cons_of_mem c hd)
      refine ⟨s₂, ?_, h₂, by rw [hw₂, hw₁]; simp⟩
      rw [List.foldlM_cons, hr]
      exact hf

theorem unmarked_of_mem_reads (h : Unmarked b) : ∀ c ∈ reads b, Unmarked c :=
  fun _ hc => h.of_infix (infix_of_mem_reads hc)

/-- A first chunk and then a text without a marker. -/
theorem foldlM_cons_unmarked {first : Bytes} {g : Bytes} {s₁ : State}
    (hr : round openAll s first = .ok s₁) (h₁ : Follows files opened s₁)
    (hw₁ : s₁.writes = s.writes ++ [(g, first)]) (hb : Unmarked b) :
    ∃ s', (first :: reads b).foldlM (round openAll) s = .ok s' ∧ Follows files opened s' ∧
      ∃ ws, s'.writes = s.writes ++ ws ∧ perByte ws =
        (first.map fun c => (g, c)) ++ b.map fun c => (innermost opened, c) := by
  obtain ⟨s₂, hf, h₂, hw₂⟩ := foldlM_unmarked (reads b) h₁ (unmarked_of_mem_reads hb)
  refine ⟨s₂, ?_, h₂, (g, first) :: (reads b).map fun c => (innermost opened, c), ?_, ?_⟩
  · rw [List.foldlM_cons, hr]
    exact hf
  · rw [hw₂, hw₁, List.append_assoc]
    rfl
  · have hmap := perByte_map_mk (innermost opened) (reads b)
    rw [flatten_reads] at hmap
    rw [← hmap]
    rfl

/-! ### One line -/

theorem take_markLine (mark t : Bytes) (h : mark.length + n.bytes.length < 8191) :
    ∃ m, (mark ++ blank :: (n.bytes ++ t)).take 8191 = mark ++ blank :: (n.bytes ++ t.take m) := by
  have hcut : mark ++ blank :: (n.bytes ++ t) = (mark ++ blank :: n.bytes) ++ t := by simp
  have hle : (mark ++ blank :: n.bytes).length ≤ 8191 := by
    simp only [List.length_append, List.length_cons]
    omega
  refine ⟨8191 - (mark ++ blank :: n.bytes).length, ?_⟩
  rw [hcut, List.take_append, List.take_of_length_le hle]
  simp

theorem zero_notMem_take (h : 0 ∉ b) : 0 ∉ b.take 8191 := fun hz => h (List.mem_of_mem_take hz)

theorem line_plain {p : PlainLine} (h : Follows files opened s) (hb : Broken (.plain p) b) :
    ∃ s', (reads b).foldlM (round openAll) s = .ok s' ∧ Follows files opened s' ∧
      ∃ ws, s'.writes = s.writes ++ ws ∧ perByte ws = b.map fun c => (innermost opened, c) := by
  obtain ⟨s', hf, h', hw⟩ :=
    foldlM_unmarked (reads b) h (unmarked_of_mem_reads (unmarked_plain hb))
  refine ⟨s', hf, h', _, hw, ?_⟩
  rw [perByte_map_mk, flatten_reads]

/-- The first chunk of a marker line with a name that fits shows the marker and the name, and
the others nothing. -/
theorem first_chunk {mark br : Bytes} {k : ℕ} {y : UInt8} (hbr : br = [] ∨ br = [newline])
    (hb : b = y :: mark ++ blank :: (n.bytes ++ tailOf k br))
    (hfit : mark.length + n.bytes.length < tmpBufSize) :
    getFileName (b.take 8191) = .ok (some n.bytes) ∧ y :: mark <:+: b.take 8191 ∧
      Unmarked (b.drop 8191) := by
  have hlen : (y :: mark).length + n.bytes.length < 8191 := by
    unfold tmpBufSize at hfit
    rw [List.length_cons]
    omega
  obtain ⟨m, hfirst⟩ := take_markLine (y :: mark) (tailOf k br) hlen
  refine ⟨?_, ?_, hb ▸ unmarked_drop hbr hlen⟩
  · rw [hb, hfirst]
    exact getFileName_name mark
      (fun hd => notMem_tailOf hbr (by decide) (List.mem_of_mem_take hd)) hfit
  · rw [hb, hfirst]
    exact (List.prefix_append _ _).isInfix

theorem line_begin {k : ℕ} (h : Follows files opened s) (hb : Broken (.beginFile n k) b)
    (hdepth : opened.length < 31) (hshort : n.bytes.length ≤ 486) :
    ∃ s', (reads b).foldlM (round openAll) s = .ok s' ∧ Follows files (n :: opened) s' ∧
      ∃ ws, s'.writes = s.writes ++ ws ∧ perByte ws = b.map fun c => (n.bytes, c) := by
  obtain ⟨br, hbr, heq⟩ := hb.mark_eq rfl
  have hfit : beginMark.tail.length + n.bytes.length < tmpBufSize := by
    have : beginMark.tail.length = 25 := rfl
    unfold tmpBufSize
    omega
  obtain ⟨hname, hbegin, hrest⟩ := first_chunk hbr heq hfit
  obtain ⟨s₁, hr, h₁, hw₁⟩ := round_begin h (zero_notMem_take hb.zero_notMem) hbegin hname
    hdepth hshort
  obtain ⟨s', hf, h', ws, hw, hws⟩ := foldlM_cons_unmarked hr h₁ hw₁ hrest
  have hne : b ≠ [] := by simp [heq]
  refine ⟨s', by rw [reads_line hb.newline_notMem hne]; exact hf, h', ws, hw, ?_⟩
  rw [hws]
  change List.map (fun c => (n.bytes, c)) _ ++ List.map (fun c => (n.bytes, c)) _ = _
  rw [← List.map_append, List.take_append_drop]

/-- The first 8191 bytes of an end line go to the file it closes, the others to the one
around. -/
theorem line_end {k : ℕ} (h : Follows files (n :: opened) s) (hb : Broken (.endOf n k) b) :
    ∃ s', (reads b).foldlM (round openAll) s = .ok s' ∧ Follows files opened s' ∧
      ∃ ws, s'.writes = s.writes ++ ws ∧ perByte ws =
        ((b.take 8191).map fun c => (n.bytes, c)) ++
          (b.drop 8191).map fun c => (innermost opened, c) := by
  obtain ⟨br, hbr, heq⟩ := hb.mark_eq rfl
  have hfit : endMark.tail.length + n.bytes.length < tmpBufSize := by
    have hshort := h.short n List.mem_cons_self
    have : endMark.tail.length = 21 := rfl
    unfold tmpBufSize
    omega
  obtain ⟨hname, hend, hrest⟩ := first_chunk hbr heq hfit
  have hbegin : ¬ beginMark <:+: b.take 8191 := by
    intro hm
    rw [heq] at hm
    exact not_begin_of_end hbr (hm.trans (List.take_prefix _ _).isInfix)
  obtain ⟨s₁, hr, h₁, hw₁⟩ := round_end h (zero_notMem_take hb.zero_notMem) hbegin hend hname
  have hne : b ≠ [] := by simp [heq]
  rw [reads_line hb.newline_notMem hne]
  exact foldlM_cons_unmarked hr h₁ hw₁ hrest

theorem line_fits (h : Follows files opened s) (ha : l.Allowed opened) (hf : l.Fits opened b)
    (hb : Broken l b) :
    ∃ s', (reads b).foldlM (round openAll) s = .ok s' ∧ Follows files (l.after opened) s' ∧
      ∃ ws, s'.writes = s.writes ++ ws ∧ perByte ws = b.map fun c => (l.file opened, c) := by
  cases l with
  | plain p => exact line_plain h hb
  | beginFile n k => exact line_begin h hb ha hf
  | endOf n k =>
      obtain ⟨outer, rfl⟩ := List.head?_eq_some_iff.mp ha
      obtain ⟨s', hr, h', ws, hw, hws⟩ := line_end h hb
      refine ⟨s', hr, h', ws, hw, ?_⟩
      rw [hws]
      rcases hf with hlen | hname
      · rw [List.take_of_length_le hlen, List.drop_eq_nil_of_le hlen]
        exact List.append_nil _
      · change n.bytes = innermost outer at hname
        rw [← hname, ← List.map_append, List.take_append_drop]
        rfl

theorem markers_begin {name : Bytes} (hmark : beginMark <:+: c)
    (hname : getFileName c = .ok (some name)) :
    ∃ s', markers openAll s c = .ok s' ∧ s'.fpDes = some name ∧ s'.writes = s.writes := by
  have hpush : (pushStack { s with tmpBuf := name } name).tmpBuf = name ∧
      (pushStack { s with tmpBuf := name } name).writes = s.writes := by
    unfold pushStack
    split <;> exact ⟨rfl, rfl⟩
  refine ⟨{ pushStack { s with tmpBuf := name } name with fpDes := some name }, ?_, rfl, hpush.2⟩
  simp [markers, hmark, hname, openDesFile, openAll, hpush.1]

theorem round_fault {e : Fault} (h : Follows files opened s) (hz : 0 ∉ c)
    (hmark : beginMark <:+: c) (hname : getFileName c = .error e) :
    round openAll s c = .error (.fault e) := by
  obtain ⟨s₁, hr, -⟩ := resume_follows h
  unfold round
  rw [cstr_eq_self hz, hr]
  change (markers openAll s₁ c >>= fun s => fputs s c) = _
  rw [markers, if_pos hmark, hname]
  rfl

/-- A first chunk with a name too long for `g_tmp_buf` goes to a file with a shorter name, if
it goes anywhere. -/
theorem round_long {r : Bytes} (h : Follows files opened s) (hc : c = beginMark ++ blank :: r)
    (hz : 0 ∉ c) :
    (∃ e, round openAll s c = .error (.fault e)) ∨
      ∃ s' g, round openAll s c = .ok s' ∧ g.length ≤ 486 ∧
        s'.writes = s.writes ++ [(g, c)] := by
  obtain ⟨s₁, hr, h₁, -, hfp, hw⟩ := resume_follows h
  have hmark : beginMark <:+: c := hc ▸ (List.prefix_append _ _).isInfix
  cases hname : getFileName c with
  | error e => exact .inl ⟨e, round_fault h hz hmark hname⟩
  | ok found =>
      right
      cases found with
      | none =>
          have hm : markers openAll s₁ c = .ok s₁ := by simp [markers, hmark, hname, endFile]
          obtain ⟨s₂, hp, -, hw₂⟩ := fputs_follows (c := c) h₁ hfp
          exact ⟨s₂, _, round_eq hz hr hm hp, length_innermost h.short, by rw [hw₂, hw]⟩
      | some name =>
          obtain ⟨s₂, hm, hfp₂, hw₂⟩ := markers_begin (s := s₁) hmark hname
          have hp : fputs s₂ c = .ok { s₂ with
              files := Function.update s₂.files name (s₂.files name ++ c),
              writes := s₂.writes ++ [(name, c)] } := by simp only [fputs, hfp₂]
          refine ⟨_, name, round_eq hz hr hm hp, length_of_getFileName (hc ▸ hname), ?_⟩
          change s₂.writes ++ _ = _
          rw [hw₂, hw]

/-! ### What was written stays written -/

/-- The writes of a state, unless the part of a round that led to it has no meaning. -/
def Wrote (ws : List (Bytes × Bytes)) : Except Stop State → Prop
  | .ok s | .error (.errEnd s) => s.writes = ws
  | .error (.fault _) => True

theorem pushStack_writes (s : State) (name : Bytes) : (pushStack s name).writes = s.writes := by
  unfold pushStack
  split <;> rfl

theorem popStack_writes {s s' : State} (h : popStack s = .ok (some s')) :
    s'.writes = s.writes := by
  unfold popStack at h
  split at h
  · cases h
  · split at h
    · cases h
      rfl
    · cases h

theorem resume_wrote (s : State) : Wrote s.writes (resume openAll s) := by
  unfold resume
  split
  · split
    · trivial
    · rfl
    · next s' hs' =>
        have hpop := popStack_writes hs'
        exact (pushStack_writes _ _).trans hpop
  · rfl

theorem endFile_wrote (s : State) (line : Bytes) : Wrote s.writes (endFile s line) := by
  unfold endFile
  split
  · split
    · trivial
    · rfl
    · split
      · trivial
      · trivial
      · next s' hs' =>
          have hpop := popStack_writes hs'
          exact hpop
  · rfl

theorem markers_wrote (s : State) (line : Bytes) : Wrote s.writes (markers openAll s line) := by
  unfold markers
  split
  · split
    · trivial
    · exact endFile_wrote s line
    · exact pushStack_writes _ _
  · exact endFile_wrote s line

/-- A round adds to the writes, also where the loop is left in it. -/
theorem round_prefix {s s' : State} (h : atErrEnd (round openAll s c) = .ok s') :
    s.writes <+: s'.writes := by
  unfold round at h
  have hres := resume_wrote s
  cases hr : resume openAll s with
  | error e =>
      rw [hr] at h hres
      cases e with
      | errEnd s₁ =>
          cases h
          exact hres ▸ List.prefix_rfl
      | fault e => cases h
  | ok s₁ =>
      rw [hr] at h hres
      have hmark := markers_wrote s₁ (ByteLayout.cstr c 0)
      change atErrEnd (markers openAll s₁ (ByteLayout.cstr c 0) >>= fun s =>
        fputs s (ByteLayout.cstr c 0)) = _ at h
      cases hm : markers openAll s₁ (ByteLayout.cstr c 0) with
      | error e =>
          rw [hm] at h hmark
          cases e with
          | errEnd s₂ =>
              cases h
              exact (hmark.trans hres) ▸ List.prefix_rfl
          | fault e => cases h
      | ok s₂ =>
          rw [hm] at h hmark
          change atErrEnd (fputs s₂ (ByteLayout.cstr c 0)) = _ at h
          unfold fputs at h
          split at h
          · cases h
          · cases h
            exact (hmark.trans hres) ▸ List.prefix_append _ _

theorem foldlM_prefix (cs : List Bytes) {s s' : State}
    (h : atErrEnd (cs.foldlM (round openAll) s) = .ok s') : s.writes <+: s'.writes := by
  induction cs generalizing s with
  | nil =>
      cases h
      exact List.prefix_rfl
  | cons c cs ih =>
      rw [List.foldlM_cons] at h
      cases hr : round openAll s c with
      | error e =>
          rw [hr] at h
          exact round_prefix (c := c) (by rw [hr]; exact h)
      | ok s₁ =>
          rw [hr] at h
          have hround : s.writes <+: s₁.writes := round_prefix (c := c) (by rw [hr]; rfl)
          exact hround.trans (ih h)

/-! ### Whole runs -/

theorem perByte_route_cons (opened : List FileName) (l : Line) (b : Bytes)
    (ls : List (Line × Bytes)) :
    perByte (route opened ((l, b) :: ls)) =
      (b.map fun c => (l.file opened, c)) ++ perByte (route (l.after opened) ls) := rfl

/-- A source that fits is written as it is routed. -/
theorem run_of_fits (ls : List (Line × Bytes)) (h : Follows files opened s)
    (hn : Nested opened (ls.map Prod.fst)) (hf : FitsBuffers opened ls)
    (hb : ∀ p ∈ ls, Broken p.1 p.2) :
    ∃ s', (ls.flatMap fun p => reads p.2).foldlM (round openAll) s = .ok s' ∧
      Follows files [] s' ∧
      perByte s'.writes = perByte s.writes ++ perByte (route opened ls) := by
  induction ls generalizing opened s with
  | nil =>
      obtain rfl : opened = [] := hn
      exact ⟨s, rfl, h, (List.append_nil _).symm⟩
  | cons p ls ih =>
      obtain ⟨l, b⟩ := p
      obtain ⟨s₁, hr, h₁, ws, hw, hws⟩ := line_fits h hn.1 hf.1 (hb _ List.mem_cons_self)
      obtain ⟨s', hrun, h', hw'⟩ := ih h₁ hn.2 hf.2 fun p hp => hb p (List.mem_cons_of_mem _ hp)
      refine ⟨s', ?_, h', ?_⟩
      · rw [List.flatMap_cons, List.foldlM_append, hr]
        exact hrun
      · rw [hw', hw, perByte_append, hws, perByte_route_cons, List.append_assoc]

/-- An end line that does not fit leaves its last bytes in another file. -/
theorem end_fits {k : ℕ} {s' : State} {cs : List Bytes} {t : List (Bytes × UInt8)}
    (h : Follows files (n :: opened) s) (hb : Broken (.endOf n k) b)
    (hrun : atErrEnd ((reads b ++ cs).foldlM (round openAll) s) = .ok s')
    (hw : perByte s'.writes = perByte s.writes ++ ((b.map fun c => (n.bytes, c)) ++ t)) :
    b.length ≤ 8191 ∨ n.bytes = innermost opened := by
  obtain ⟨s₁, hr, -, ws, hw₁, hws⟩ := line_end h hb
  rw [List.foldlM_append, hr] at hrun
  obtain ⟨more, hmore⟩ := foldlM_prefix cs hrun
  rw [← hmore, hw₁, perByte_append, perByte_append, hws, List.append_assoc,
    List.append_cancel_left_eq] at hw
  have hsplit : ((b.take 8191).map fun c => (n.bytes, c)) ++
      ((b.drop 8191).map fun c => (n.bytes, c)) = b.map fun c => (n.bytes, c) := by
    rw [← List.map_append, List.take_append_drop]
  rw [← hsplit, List.append_assoc, List.append_assoc, List.append_cancel_left_eq] at hw
  have hsame := (List.append_inj hw (by simp)).1
  cases hd : b.drop 8191 with
  | nil => exact .inl (List.drop_eq_nil_iff.mp hd)
  | cons x r =>
      rw [hd] at hsame
      exact .inr (congrArg Prod.fst (List.cons.inj hsame).1).symm

theorem begin_fits {k : ℕ} {s' : State} {cs : List Bytes} {t : List (Bytes × UInt8)}
    (h : Follows files opened s) (hb : Broken (.beginFile n k) b)
    (hrun : atErrEnd ((reads b ++ cs).foldlM (round openAll) s) = .ok s')
    (hw : perByte s'.writes = perByte s.writes ++ ((b.map fun c => (n.bytes, c)) ++ t)) :
    n.bytes.length ≤ 486 := by
  obtain ⟨br, -, heq⟩ := hb.mark_eq rfl
  have hne : b ≠ [] := by simp [heq]
  have hfirst : b.take 8191 = beginMark ++ blank :: (n.bytes ++ tailOf k br).take 8164 := by
    rw [heq]
    rfl
  rw [reads_line hb.newline_notMem hne, List.cons_append, List.foldlM_cons] at hrun
  rcases round_long h hfirst (zero_notMem_take hb.zero_notMem) with ⟨e, he⟩ | ⟨s₁, g, hr, hg, hw₁⟩
  · rw [he] at hrun
    cases hrun
  · rw [hr] at hrun
    obtain ⟨more, hmore⟩ := foldlM_prefix _ hrun
    rw [← hmore, hw₁, perByte_append, perByte_append, List.append_assoc,
      List.append_cancel_left_eq, hfirst, heq] at hw
    -- the first byte tells the two files apart
    have hsame : g = n.bytes := congrArg Prod.fst (List.cons.inj hw).1
    rwa [← hsame]

/-- A run that writes what is routed had a source that fits. -/
theorem fits_of_run (ls : List (Line × Bytes)) {s' : State} (h : Follows files opened s)
    (hn : Nested opened (ls.map Prod.fst)) (hb : ∀ p ∈ ls, Broken p.1 p.2)
    (hrun : atErrEnd ((ls.flatMap fun p => reads p.2).foldlM (round openAll) s) = .ok s')
    (hw : perByte s'.writes = perByte s.writes ++ perByte (route opened ls)) :
    FitsBuffers opened ls := by
  induction ls generalizing opened s with
  | nil => trivial
  | cons p ls ih =>
      obtain ⟨l, b⟩ := p
      rw [List.flatMap_cons] at hrun
      rw [perByte_route_cons] at hw
      have hbl : Broken l b := hb _ List.mem_cons_self
      have hl : l.Fits opened b := by
        cases l with
        | plain p => trivial
        | beginFile n k => exact begin_fits h hbl hrun hw
        | endOf n k =>
            obtain ⟨outer, rfl⟩ := List.head?_eq_some_iff.mp hn.1
            exact end_fits h hbl hrun hw
      obtain ⟨s₁, hr, h₁, ws, hw₁, hws⟩ := line_fits h hn.1 hl hbl
      rw [List.foldlM_append, hr] at hrun
      refine ⟨hl, ih h₁ hn.2 (fun p hp => hb p (List.mem_cons_of_mem _ hp)) hrun ?_⟩
      rw [hw, hw₁, perByte_append, hws, List.append_assoc]

/-! ### Sources -/

theorem follows_start (files : Bytes → Bytes) :
    Follows files [] (pushStack { start files with fpDes := some desFileName } desFileName) :=
  ⟨rfl, Nat.zero_le _, nofun, fun _ => rfl, fun _ => (List.append_nil _).symm⟩

theorem main_text (src : Source) (files : Bytes → Bytes) :
    main openAll files src.text =
      atErrEnd ((src.broken.flatMap fun p => reads p.2).foldlM (round openAll)
        (pushStack { start files with fpDes := some desFileName } desFileName)) := by
  rw [Source.broken, ← reads_withBreaks]
  rfl

theorem Source.nested_broken (src : Source) : Nested [] (src.broken.map Prod.fst) := by
  rw [Source.broken, map_fst_withBreaks]
  exact src.nested

theorem main_of_fits (src : Source) (files : Bytes → Bytes) (hf : src.Fits) :
    ∃ s, main openAll files src.text = .ok s ∧ perByte s.writes = perByte src.routing ∧
      ∀ name, s.files name = files name ++ contentOf name src.routing := by
  obtain ⟨s, hrun, h, hw⟩ := run_of_fits src.broken (follows_start files) src.nested_broken hf
    fun p hp => broken_of_mem hp
  refine ⟨s, by rw [main_text, hrun]; rfl, hw, fun name => ?_⟩
  rw [h.content, contentOf_congr hw]
  rfl

theorem main_of_fits_new (src : Source) {files : Bytes → Bytes} (hf : src.Fits)
    (hnew : ∀ name ∈ src.outputs, files name = []) :
    ∃ s, main openAll files src.text = .ok s ∧ perByte s.writes = perByte src.routing ∧
      ∀ name ∈ src.outputs, s.files name = contentOf name src.routing := by
  obtain ⟨s, hmain, hw, hc⟩ := main_of_fits src files hf
  refine ⟨s, hmain, hw, fun name hname => ?_⟩
  rw [hc, hnew name hname, List.nil_append]

theorem fits_of_main (src : Source) (files : Bytes → Bytes) {s : State}
    (h : main openAll files src.text = .ok s) (hw : perByte s.writes = perByte src.routing) :
    src.Fits := by
  rw [main_text] at h
  exact fits_of_run src.broken (follows_start files) src.nested_broken
    (fun p hp => broken_of_mem hp) h hw

/-- Without earlier output files, the lines of a source arrive in the files they belong to
exactly if the source fits the buffers. -/
theorem main_routes_iff (src : Source) (files : Bytes → Bytes)
    (hnew : ∀ name ∈ src.outputs, files name = []) :
    (∃ s, main openAll files src.text = .ok s ∧ perByte s.writes = perByte src.routing ∧
      ∀ name ∈ src.outputs, s.files name = contentOf name src.routing) ↔ src.Fits := by
  constructor
  · rintro ⟨s, hmain, hw, -⟩
    exact fits_of_main src files hmain hw
  · exact fun hf => main_of_fits_new src hf hnew

def nameA : FileName where
  stem := [97]
  ext := 99
  stem_char := List.forall_mem_singleton.mpr (by decide)
  ext_char := by decide

def emptyA : Source where
  lines := [.beginFile nameA 4, .endOf nameA 4]
  finalBreak := true
  nested := ⟨Nat.zero_lt_succ 30, rfl, rfl⟩

theorem fits_emptyA : emptyA.Fits :=
  ⟨(by decide : nameA.bytes.length ≤ 486), .inl (by decide), trivial⟩

def nameB : FileName where
  stem := [98]
  ext := 99
  stem_char := List.forall_mem_singleton.mpr (by decide)
  ext_char := by decide

def letter (c : UInt8) (hbreak : newline ≠ c) (hzero : 0 ≠ c) : PlainLine where
  bytes := [c]
  newline_notMem := List.not_mem_cons_of_ne_of_not_mem hbreak List.not_mem_nil
  zero_notMem := List.not_mem_cons_of_ne_of_not_mem hzero List.not_mem_nil
  not_begin := fun h => absurd h.length_le (by decide : ¬ beginMark.length ≤ 1)
  not_end := fun h => absurd h.length_le (by decide : ¬ endMark.length ≤ 1)

/-- A file `b.c` in a file `a.c`, with lines in front of, between and behind the markers. -/
def nestedAB : Source where
  lines := [.plain (letter 117 (by decide) (by decide)), .beginFile nameA 4,
    .plain (letter 118 (by decide) (by decide)), .beginFile nameB 4,
    .plain (letter 119 (by decide) (by decide)), .endOf nameB 4,
    .plain (letter 120 (by decide) (by decide)), .endOf nameA 4,
    .plain (letter 121 (by decide) (by decide))]
  finalBreak := false
  nested := ⟨trivial, Nat.zero_lt_succ 30, trivial, Nat.one_lt_succ_succ 29, trivial, rfl, trivial,
    rfl, trivial, rfl⟩

theorem fits_nestedAB : nestedAB.Fits :=
  ⟨trivial, (by decide : nameA.bytes.length ≤ 486), trivial,
    (by decide : nameB.bytes.length ≤ 486), trivial, .inl (by decide), trivial, .inl (by decide),
    trivial, trivial⟩

/-- Each line has arrived where it belongs: the first and the last in `sqlite3.c`, the one in
`b.c` there, and those around `b.c` in `a.c`, with the lines of their markers. -/
theorem main_routes_nestedAB :
    ∃ s, main openAll (fun _ => []) nestedAB.text = .ok s ∧
      s.files desFileName = [117, newline, 121] ∧
      s.files nameB.bytes = (Line.beginFile nameB 4).bytes ++ [newline, 119, newline] ++
        (Line.endOf nameB 4).bytes ++ [newline] ∧
      s.files nameA.bytes =
        (Line.beginFile nameA 4).bytes ++ [newline, 118, newline, 120, newline] ++
          (Line.endOf nameA 4).bytes ++ [newline] := by
  obtain ⟨s, hmain, -, hc⟩ :=
    (main_routes_iff nestedAB (fun _ => []) fun _ _ => rfl).mpr fits_nestedAB
  refine ⟨s, hmain, ?_, ?_, ?_⟩
  · rw [hc desFileName (by decide)]
    decide
  · rw [hc nameB.bytes (by decide)]
    decide
  · rw [hc nameA.bytes (by decide)]
    decide

/-- A name of 487 bytes: `./` 242 times and `x.c`. -/
def longName : FileName where
  stem := (List.replicate 242 [dot, slash]).flatten ++ [120]
  ext := 99
  stem_char := by
    intro c hc
    simp only [List.mem_append, List.mem_flatten, List.mem_replicate, List.mem_singleton] at hc
    rcases hc with ⟨l, ⟨-, rfl⟩, hc⟩ | rfl
    · rcases List.mem_pair.mp hc with rfl | rfl <;> decide
    · decide
  ext_char := by decide

def emptyLong : Source where
  lines := [.beginFile longName 4, .endOf longName 4]
  finalBreak := true
  nested := ⟨Nat.zero_lt_succ 30, rfl, rfl⟩

theorem main_leaves_tmpBuf :
    main openAll (fun _ => []) emptyLong.text = .error .tmpBufUnterminated := by
  have hb : Broken (.beginFile longName 4) ((Line.beginFile longName 4).bytes ++ [newline]) :=
    .inr rfl
  have hstem : longName.stem.length = 485 := by
    rw [longName, List.length_append, List.length_flatten, List.map_replicate,
      List.sum_replicate_nat]
    rfl
  have hcut : (Line.beginFile longName 4).bytes ++ [newline] =
      (beginMark ++ blank :: longName.stem) ++ dot :: 99 :: tailOf 4 [newline] := by
    simp only [Line.bytes, FileName.bytes, tailOf, List.append_assoc, List.cons_append,
      List.nil_append]
    rfl
  have hfront : (beginMark ++ blank :: longName.stem).length = tmpBufSize := by
    rw [List.length_append, List.length_cons, hstem]
    rfl
  have hshort : ((Line.beginFile longName 4).bytes ++ [newline]).length ≤ 8191 := by
    rw [hcut, List.length_append, hfront]
    decide
  have hmark : beginMark <:+: (Line.beginFile longName 4).bytes ++ [newline] := by
    rw [hcut, List.append_assoc]
    exact (List.prefix_append _ _).isInfix
  have hname : getFileName ((Line.beginFile longName 4).bytes ++ [newline]) =
      .error .tmpBufUnterminated := by
    rw [hcut]
    exact getFileName_unterminated (by decide) hfront
  have hround := round_fault (follows_start fun _ => []) hb.zero_notMem hmark hname
  rw [main_text]
  change atErrEnd ((reads ((Line.beginFile longName 4).bytes ++ [newline]) ++ _).foldlM _ _) = _
  rw [reads_line hb.newline_notMem (by simp), List.take_of_length_le hshort, List.cons_append,
    List.foldlM_cons, hround]
  rfl

/-- The files hold what a run routes to them exactly if the source fits the buffers and they
were empty before the run: `a+` keeps what is there. -/
theorem main_overwrites_iff (src : Source) (files : Bytes → Bytes) :
    (∃ s, main openAll files src.text = .ok s ∧ perByte s.writes = perByte src.routing ∧
      ∀ name ∈ src.outputs, s.files name = contentOf name src.routing) ↔
      src.Fits ∧ ∀ name ∈ src.outputs, files name = [] := by
  constructor
  · rintro ⟨s, hmain, hw, hc⟩
    have hf := fits_of_main src files hmain hw
    obtain ⟨s', hmain', -, hc'⟩ := main_of_fits src files hf
    obtain rfl : s' = s := Except.ok.inj (hmain'.symm.trans hmain)
    refine ⟨hf, fun name hname => ?_⟩
    exact List.append_left_eq_self.mp ((hc' name).symm.trans (hc name hname))
  · rintro ⟨hf, hnew⟩
    exact main_of_fits_new src hf hnew

/-- A second run doubles the files. -/
theorem main_twice_doubles :
    ∃ s s', main openAll (fun _ => []) emptyA.text = .ok s ∧
      main openAll s.files emptyA.text = .ok s' ∧ s.files nameA.bytes ≠ [] ∧
      s'.files nameA.bytes = s.files nameA.bytes ++ s.files nameA.bytes := by
  obtain ⟨s, hmain, -, hc⟩ := main_of_fits emptyA (fun _ => []) fits_emptyA
  obtain ⟨s', hmain', -, hc'⟩ := main_of_fits emptyA s.files fits_emptyA
  have hfirst : s.files nameA.bytes = contentOf nameA.bytes emptyA.routing := hc _
  refine ⟨s, s', hmain, hmain', ?_, ?_⟩
  · rw [hfirst]
    decide
  · rw [hc', ← hfirst]

end Hatch.Split
