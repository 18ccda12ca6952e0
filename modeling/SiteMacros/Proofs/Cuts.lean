import SiteMacros.Script.Call

/-!
# Cuts of a text

Places in a text are counted in bytes, and not every byte is a place where the text can
be taken apart: a character may have several. A cut is a place that no character is
across (`Text.IsCut`). At a cut the text comes apart into what is before and what is
behind it, and nothing else has that length, so cuts can be told from each other by
their numbers alone.

The end of a line that a statement's end is moved to is a cut, since only blanks and a
line break are skipped on the way (`Text.lineEnd_spec`). What begins with another
character than these therefore does not begin on the way (`Text.lineEnd_le`).
-/

namespace SiteMacros

namespace Text

/-- The number of bytes that characters take. -/
def bytes : List Char → Nat
  | [] => 0
  | c :: cs => c.utf8Size + bytes cs

theorem bytes_append (cs ds : List Char) : bytes (cs ++ ds) = bytes cs + bytes ds := by
  induction cs with
  | nil => exact (Nat.zero_add _).symm
  | cons c cs ih => rw [List.cons_append, bytes, bytes, ih, Nat.add_assoc]

theorem eq_nil_of_bytes {cs : List Char} (h : bytes cs = 0) : cs = [] := by
  cases cs with
  | nil => rfl
  | cons c cs =>
      have hpos := c.utf8Size_pos
      rw [bytes] at h
      omega

theorem takeBytes_append_dropBytes (n : Nat) (cs : List Char) :
    Edit.takeBytes n cs ++ Edit.dropBytes n cs = cs := by
  induction cs generalizing n with
  | nil => cases n <;> rfl
  | cons c cs ih =>
      cases n with
      | zero => rfl
      | succ n => rw [Edit.takeBytes, Edit.dropBytes, List.cons_append, ih]

/-- Is there a place between characters so many bytes into the text? -/
def IsCut (cs : List Char) (n : Nat) : Prop :=
  bytes (Edit.takeBytes n cs) = n

instance (cs : List Char) (n : Nat) : Decidable (IsCut cs n) :=
  inferInstanceAs (Decidable (_ = _))

theorem takeBytes_append (before after : List Char) :
    Edit.takeBytes (bytes before) (before ++ after) = before := by
  induction before with
  | nil => cases after <;> rfl
  | cons c before ih =>
      obtain ⟨n, hn⟩ := Nat.exists_eq_succ_of_ne_zero (Nat.pos_iff_ne_zero.1 c.utf8Size_pos)
      rw [bytes, hn, Nat.succ_add, List.cons_append, Edit.takeBytes, hn,
        Nat.succ_eq_add_one, show n + bytes before + 1 - (n + 1) = bytes before by omega, ih]

theorem dropBytes_append (before after : List Char) :
    Edit.dropBytes (bytes before) (before ++ after) = after := by
  have hsplit := takeBytes_append_dropBytes (bytes before) (before ++ after)
  rw [takeBytes_append] at hsplit
  exact List.append_cancel_left hsplit

theorem isCut_iff {cs : List Char} {n : Nat} :
    IsCut cs n ↔ ∃ before after, cs = before ++ after ∧ bytes before = n := by
  constructor
  · intro h
    exact ⟨_, _, (takeBytes_append_dropBytes n cs).symm, h⟩
  · rintro ⟨before, after, rfl, rfl⟩
    rw [IsCut, takeBytes_append]

/-- Of two ways to take a text apart, the one with the shorter front takes it apart before
the other. -/
theorem exists_append_of_bytes_le {as bs cs ds : List Char} (h : as ++ bs = cs ++ ds)
    (hle : bytes as ≤ bytes cs) : ∃ between, cs = as ++ between ∧ bs = between ++ ds := by
  rcases List.append_eq_append_iff.1 h with hfront | ⟨extra, rfl, rfl⟩
  · exact hfront
  · have hextra : extra = [] := eq_nil_of_bytes (by rw [bytes_append] at hle; omega)
    subst hextra
    exact ⟨[], by rw [List.append_nil, List.append_nil], rfl⟩

/-- Of two cuts, the later one cuts what is behind the earlier. -/
theorem IsCut.behind {before after : List Char} {n : Nat} (h : IsCut (before ++ after) n)
    (hn : bytes before ≤ n) :
    ∃ kept rest, after = kept ++ rest ∧ bytes before + bytes kept = n := by
  obtain ⟨front, rest, hsplit, rfl⟩ := isCut_iff.1 h
  obtain ⟨kept, rfl, rfl⟩ := exists_append_of_bytes_le hsplit hn
  exact ⟨kept, rest, rfl, (bytes_append before kept).symm⟩

/-! ## Ends of lines -/

/-- The characters that a statement's end is moved over. -/
def isGap (c : Char) : Bool :=
  c == ' ' || c == '\t' || c == '\r' || c == '\n'

theorem bytes_of_isGap {cs : List Char} (h : ∀ c ∈ cs, isGap c = true) : bytes cs = cs.length := by
  induction cs with
  | nil => rfl
  | cons c cs ih =>
      obtain ⟨hc, hcs⟩ := List.forall_mem_cons.1 h
      have hone : c.utf8Size = 1 := by
        simp only [isGap, Bool.or_eq_true, beq_iff_eq] at hc
        rcases hc with ((rfl | rfl) | rfl) | rfl <;> rfl
      rw [bytes, ih hcs, hone, List.length_cons, Nat.add_comm]

/-- The end of a line is the place behind blanks and a line break, or behind nothing. -/
theorem lineEnd_spec (s : String) (n : Nat) : ∃ gap rest,
    Edit.dropBytes n s.toList = gap ++ rest ∧ (∀ c ∈ gap, isGap c = true) ∧
      lineEnd s n = n + bytes gap := by
  rw [lineEnd]
  generalize Edit.dropBytes n s.toList = behind
  generalize hblank : (fun c : Char => c == ' ' || c == '\t') = isBlank
  have hsplit := List.takeWhile_append_dropWhile (p := isBlank) (l := behind)
  have hblanks : ∀ c ∈ behind.takeWhile isBlank, isGap c = true := by
    intro c hc
    have h := List.all_eq_true.1 List.all_takeWhile c hc
    rw [← hblank, Bool.or_eq_true] at h
    rw [isGap, Bool.or_eq_true, Bool.or_eq_true, Bool.or_eq_true]
    exact .inl (.inl h)
  split
  · next rest hrest =>
      have hgap : ∀ c ∈ behind.takeWhile isBlank ++ ['\r', '\n'], isGap c = true :=
        List.forall_mem_append.2 ⟨hblanks,
          List.forall_mem_cons.2 ⟨rfl, List.forall_mem_singleton.2 rfl⟩⟩
      refine ⟨_, rest, ?_, hgap, ?_⟩
      · rw [hrest] at hsplit
        rw [List.append_assoc]
        exact hsplit.symm
      · rw [bytes_of_isGap hgap, List.length_append]
        rfl
  · next rest hrest =>
      have hgap : ∀ c ∈ behind.takeWhile isBlank ++ ['\n'], isGap c = true :=
        List.forall_mem_append.2 ⟨hblanks, List.forall_mem_singleton.2 rfl⟩
      refine ⟨_, rest, ?_, hgap, ?_⟩
      · rw [hrest] at hsplit
        rw [List.append_assoc]
        exact hsplit.symm
      · rw [bytes_of_isGap hgap, List.length_append]
        rfl
  · exact ⟨[], behind, rfl, List.forall_mem_nil _, rfl⟩

theorem le_lineEnd (s : String) (n : Nat) : n ≤ lineEnd s n := by
  obtain ⟨gap, -, -, -, h⟩ := lineEnd_spec s n
  rw [h]
  exact Nat.le_add_right n _

theorem isCut_lineEnd {s : String} {n : Nat} (h : IsCut s.toList n) :
    IsCut s.toList (lineEnd s n) := by
  obtain ⟨gap, rest, hbehind, -, hplace⟩ := lineEnd_spec s n
  refine isCut_iff.2 ⟨Edit.takeBytes n s.toList ++ gap, rest, ?_, ?_⟩
  · rw [List.append_assoc, ← hbehind, takeBytes_append_dropBytes]
  · rw [bytes_append, show bytes (Edit.takeBytes n s.toList) = n from h, hplace]

/-- What begins behind a statement with another character than a blank or a line break
begins behind the end of the statement's line. -/
theorem lineEnd_le {s : String} {n k : Nat} (hn : IsCut s.toList n) (hk : IsCut s.toList k)
    (hle : n ≤ k) {c : Char} {cs : List Char} (hfirst : Edit.dropBytes k s.toList = c :: cs)
    (hc : isGap c = false) : lineEnd s n ≤ k := by
  obtain ⟨gap, rest, hbehind, hgap, hplace⟩ := lineEnd_spec s n
  have hwhole := takeBytes_append_dropBytes n s.toList
  have hbytes : bytes (Edit.takeBytes n s.toList) = n := hn
  rw [← hwhole] at hk
  obtain ⟨kept, after, hsplit, hkept⟩ := hk.behind (hbytes.symm ▸ hle)
  have hafter : after = c :: cs := by
    rw [← hfirst, ← hwhole, hsplit, ← List.append_assoc, ← hkept, ← bytes_append, dropBytes_append]
  rw [hplace, ← hkept, hbytes]
  refine Nat.add_le_add_left ?_ n
  -- otherwise the place is within the gap, and so is the character there
  rw [hbehind, hafter] at hsplit
  rcases List.append_eq_append_iff.1 hsplit with ⟨more, rfl, -⟩ | ⟨more, rfl, hmore⟩
  · rw [bytes_append]
    exact Nat.le_add_right _ _
  · cases more with
    | nil =>
        exact Nat.le_of_eq (by rw [List.append_nil])
    | cons d more =>
        have hd := hgap d (List.mem_append_right _ List.mem_cons_self)
        rw [← (List.cons.inj hmore).1, hc] at hd
        exact nomatch hd

end Text

end SiteMacros
