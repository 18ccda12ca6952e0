import Mathlib.Data.List.Induction
import Mathlib.Data.Nat.Digits.Defs
import SiteMacros.PageName

/-!
# The grammar of page names

A name is read in three ways that know nothing of each other: its first index token is
looked for, the text `[protect]` is looked for, and all tokens are taken out. If its
brackets are in order, the name is a text and then tokens, each with a text behind it
(`Tokenized`), and the three readings come to one: they look at the tokens one by one
(`parse?_tokenized`).

A name is a page's if a token spells a number. That may be in digits of any script and of
any length; a number is only taken if it is written with `0` to `9` and is not too great,
and there is no second try with a later token. The sign counts only where the number is not
zero.

Brackets that are not in order are no error. What is left of any text when its tokens are
taken out has no bracket with a closing one behind it (`Settled`), so there is nothing left
to take out a second time.
-/

namespace SiteMacros.PageName

/-! ## Index tokens -/

/-- The text between the brackets of an index token: a sign or none, and digits. -/
structure IsNumeral (text : List Char) (negative : Bool) (digits : List Char) : Prop where
  spelled : text = digits ∧ negative = false ∨ text = '+' :: digits ∧ negative = false ∨
    text = '-' :: digits ∧ negative = true
  ne_nil : digits ≠ []
  digits : ∀ d ∈ digits, Text.isDecimalDigit d = true

theorem IsNumeral.not_mem {text digits : List Char} {negative : Bool}
    (h : IsNumeral text negative digits) {c : Char} (hc : Text.isDecimalDigit c = false)
    (hsign : c ≠ '+' ∧ c ≠ '-') : c ∉ text := by
  have hdigits : c ∉ digits := fun hmem => by
    rw [h.digits c hmem] at hc
    exact nomatch hc
  rcases h.spelled with ⟨rfl, -⟩ | ⟨rfl, -⟩ | ⟨rfl, -⟩
  · exact hdigits
  · exact List.not_mem_cons_of_ne_of_not_mem hsign.1 hdigits
  · exact List.not_mem_cons_of_ne_of_not_mem hsign.2 hdigits

theorem IsNumeral.close_not_mem {text digits : List Char} {negative : Bool}
    (h : IsNumeral text negative digits) : ']' ∉ text :=
  h.not_mem (by decide) (by decide)

/-- What follows the sign of an index token. -/
def indexDigits? (negative : Bool) (body : List Char) : Option IndexToken :=
  match body.takeWhile Text.isDecimalDigit, body.dropWhile Text.isDecimalDigit with
  | _ :: _, ']' :: rest =>
      some ⟨negative, body.takeWhile Text.isDecimalDigit, rest.head? == some '_'⟩
  | _, _ => none

theorem indexDigits?_eq_some_iff {negative : Bool} {body : List Char} {t : IndexToken} :
    indexDigits? negative body = some t ↔ t.negative = negative ∧ t.digits ≠ [] ∧
      (∀ d ∈ t.digits, Text.isDecimalDigit d = true) ∧
      ∃ rest, body = t.digits ++ ']' :: rest ∧ t.marked = (rest.head? == some '_') := by
  constructor
  · intro h
    rw [indexDigits?] at h
    split at h
    · next d ds rest htake hdrop =>
        cases h
        refine ⟨rfl, ?_, fun d hd => List.all_eq_true.1 List.all_takeWhile d hd, rest,
          ?_, rfl⟩
        · rw [htake]
          exact List.cons_ne_nil d ds
        · rw [← hdrop, List.takeWhile_append_dropWhile]
    · cases h
  · obtain ⟨sign, digits, marked⟩ := t
    rintro ⟨rfl, hne, hdigits, rest, rfl, rfl⟩
    have htake : (digits ++ ']' :: rest).takeWhile Text.isDecimalDigit = digits := by
      rw [List.takeWhile_append_of_pos hdigits, List.takeWhile_cons_of_neg (by decide),
        List.append_nil]
    have hdrop : (digits ++ ']' :: rest).dropWhile Text.isDecimalDigit = ']' :: rest := by
      rw [List.dropWhile_append_of_pos hdigits, List.dropWhile_cons_of_neg (by decide)]
    rw [indexDigits?, htake, hdrop]
    cases digits with
    | nil => exact absurd rfl hne
    | cons d ds => rfl

theorem indexAfterBracket?_unsigned {cs : List Char} (hminus : ∀ body, cs ≠ '-' :: body)
    (hplus : ∀ body, cs ≠ '+' :: body) : indexAfterBracket? cs = indexDigits? false cs := by
  rw [indexAfterBracket?]
  · rfl
  · exact hminus
  · exact hplus

/-- An index token is a numeral between brackets. -/
theorem indexAfterBracket?_eq_some_iff {cs : List Char} {t : IndexToken} :
    indexAfterBracket? cs = some t ↔ ∃ text rest, cs = text ++ ']' :: rest ∧
      IsNumeral text t.negative t.digits ∧ t.marked = (rest.head? == some '_') := by
  constructor
  · intro h
    by_cases hminus : ∃ body, cs = '-' :: body
    · obtain ⟨body, rfl⟩ := hminus
      obtain ⟨hnegative, hne, hdigits, rest, rfl, hmarked⟩ := indexDigits?_eq_some_iff.1 h
      exact ⟨'-' :: t.digits, rest, rfl, ⟨.inr (.inr ⟨rfl, hnegative⟩), hne, hdigits⟩, hmarked⟩
    by_cases hplus : ∃ body, cs = '+' :: body
    · obtain ⟨body, rfl⟩ := hplus
      obtain ⟨hnegative, hne, hdigits, rest, rfl, hmarked⟩ := indexDigits?_eq_some_iff.1 h
      exact ⟨'+' :: t.digits, rest, rfl, ⟨.inr (.inl ⟨rfl, hnegative⟩), hne, hdigits⟩, hmarked⟩
    rw [indexAfterBracket?_unsigned (not_exists.1 hminus) (not_exists.1 hplus)] at h
    obtain ⟨hnegative, hne, hdigits, rest, rfl, hmarked⟩ := indexDigits?_eq_some_iff.1 h
    exact ⟨t.digits, rest, rfl, ⟨.inl ⟨rfl, hnegative⟩, hne, hdigits⟩, hmarked⟩
  · rintro ⟨text, rest, rfl, ⟨hspelled, hne, hdigits⟩, hmarked⟩
    rcases hspelled with ⟨rfl, hnegative⟩ | ⟨rfl, hnegative⟩ | ⟨rfl, hnegative⟩
    · have hfirst : ∀ c body, Text.isDecimalDigit c = false →
          t.digits ++ ']' :: rest ≠ c :: body := by
        intro c body hc heq
        obtain ⟨d, ds, hds⟩ := List.exists_cons_of_ne_nil hne
        rw [hds, List.cons_append] at heq
        have hd := hdigits d (by rw [hds]; exact List.mem_cons_self)
        rw [(List.cons.inj heq).1, hc] at hd
        exact nomatch hd
      rw [indexAfterBracket?_unsigned (fun body => hfirst '-' body (by decide))
        fun body => hfirst '+' body (by decide)]
      exact indexDigits?_eq_some_iff.2 ⟨hnegative, hne, hdigits, rest, rfl, hmarked⟩
    · exact indexDigits?_eq_some_iff.2 ⟨hnegative, hne, hdigits, rest, rfl, hmarked⟩
    · exact indexDigits?_eq_some_iff.2 ⟨hnegative, hne, hdigits, rest, rfl, hmarked⟩

/-- A text is cut at the first occurrence of a character in one way. -/
theorem cut_inj {c : Char} {before before' after after' : List Char} (h : c ∉ before)
    (h' : c ∉ before') (heq : before ++ c :: after = before' ++ c :: after') :
    before = before' ∧ after = after' := by
  have htake : ∀ {cs : List Char} (rest : List Char), c ∉ cs →
      (cs ++ c :: rest).takeWhile (· != c) = cs := by
    intro cs rest hcs
    have hall : ∀ d ∈ cs, (d != c) = true := by
      intro d hd
      rw [bne_iff_ne]
      rintro rfl
      exact hcs hd
    rw [List.takeWhile_append_of_pos hall, List.takeWhile_cons_of_neg (by simp), List.append_nil]
  have hbefore : before = before' := by rw [← htake after h, heq, htake after' h']
  subst hbefore
  exact ⟨rfl, (List.cons.inj (List.append_cancel_left heq)).2⟩

/-- A token is an index token by the text up to the bracket that closes it. -/
theorem indexAfterBracket?_close {body rest : List Char} (h : ']' ∉ body) {t : IndexToken} :
    indexAfterBracket? (body ++ ']' :: rest) = some t ↔
      IsNumeral body t.negative t.digits ∧ t.marked = (rest.head? == some '_') := by
  rw [indexAfterBracket?_eq_some_iff]
  constructor
  · rintro ⟨text, rest', heq, hnumeral, hmarked⟩
    obtain ⟨rfl, rfl⟩ := cut_inj h hnumeral.close_not_mem heq
    exact ⟨hnumeral, hmarked⟩
  · rintro ⟨hnumeral, hmarked⟩
    exact ⟨body, rest, rfl, hnumeral, hmarked⟩

/-! ## Numbers and kinds -/

/-- The number that digits `0` to `9` spell. -/
def magnitude (digits : List Char) : Nat :=
  Nat.ofDigits 10 (digits.map fun c => c.toNat - 48).reverse

/-- The number that a sign and such digits spell. -/
def value (negative : Bool) (digits : List Char) : Int :=
  if negative then -magnitude digits else magnitude digits

theorem natAbs_value (negative : Bool) (digits : List Char) :
    (value negative digits).natAbs = magnitude digits := by
  cases negative with
  | false => rfl
  | true => exact Int.natAbs_neg _

/-- Is it the kind of a page with this number? -/
def HasNumber (v : Int) : PageKind → Prop
  | .menuItem n => 0 < v ∧ v = n
  | .hidden n => v < 0 ∧ v = -n
  | .fallback => v = 0

theorem number?_eq_some_iff {digits : List Char} {n : Nat} :
    Text.number? digits = some n ↔
      (∀ d ∈ digits, d.isDigit = true) ∧ n = magnitude digits := by
  induction digits using List.reverseRecOn generalizing n with
  | nil =>
      rw [Text.number?, List.foldl_nil, Option.some.injEq]
      exact ⟨fun h => ⟨fun d hd => absurd hd List.not_mem_nil, h.symm⟩, fun h => h.2.symm⟩
  | append_singleton digits d ih =>
      have hstep : Text.number? (digits ++ [d]) = (Text.number? digits).bind fun n =>
          if d.isDigit then some (10 * n + (d.toNat - 48)) else none := by
        rw [Text.number?, List.foldl_append]
        rfl
      have hvalue : magnitude (digits ++ [d]) = 10 * magnitude digits + (d.toNat - 48) := by
        rw [magnitude, List.map_append, List.map_singleton, List.reverse_append,
          List.reverse_singleton, List.singleton_append, Nat.ofDigits_cons, Nat.add_comm]
        rfl
      rw [hstep, Option.bind_eq_some_iff, hvalue, List.forall_mem_append,
        List.forall_mem_singleton]
      constructor
      · rintro ⟨m, hm, hn⟩
        obtain ⟨hdigits, rfl⟩ := ih.1 hm
        split at hn
        · next hd => exact ⟨⟨hdigits, hd⟩, (Option.some.inj hn).symm⟩
        · cases hn
      · rintro ⟨⟨hdigits, hd⟩, rfl⟩
        exact ⟨_, ih.2 ⟨hdigits, rfl⟩, if_pos hd⟩

/-- The sign decides the kind, unless the number is zero. -/
theorem hasNumber_iff {negative : Bool} {digits : List Char} {kind : PageKind} :
    (if magnitude digits = 0 then some PageKind.fallback
      else if negative then some (.hidden (magnitude digits))
      else some (.menuItem (magnitude digits))) = some kind ↔
      HasNumber (value negative digits) kind := by
  rw [value]
  generalize magnitude digits = n
  split
  · next hzero =>
      subst hzero
      cases negative <;> cases kind <;> simp [HasNumber]
  · next hne => cases negative <;> cases kind <;> simp [HasNumber] <;> omega

/-- An index token has a kind if its number is written with `0` to `9` and not too great. -/
theorem kind?_eq_some_iff {t : IndexToken} {kind : PageKind} :
    kind? t = some kind ↔ (∀ d ∈ t.digits, d.isDigit = true) ∧
      (value t.negative t.digits).natAbs ≤ maxOrder ∧
      HasNumber (value t.negative t.digits) kind := by
  rw [kind?, natAbs_value, ← hasNumber_iff]
  constructor
  · intro h
    obtain ⟨n, hn, h⟩ := Option.bind_eq_some_iff.1 h
    obtain ⟨hdigits, rfl⟩ := number?_eq_some_iff.1 hn
    split at h
    · next hle => exact ⟨hdigits, hle, h⟩
    · cases h
  · rintro ⟨hdigits, hle, hkind⟩
    refine Option.bind_eq_some_iff.2 ⟨_, number?_eq_some_iff.2 ⟨hdigits, rfl⟩, ?_⟩
    rw [if_pos hle, hkind]

/-- Every number makes a kind. -/
theorem exists_hasNumber (v : Int) : ∃ kind, HasNumber v kind := by
  rcases Int.lt_trichotomy v 0 with hneg | hzero | hpos
  · exact ⟨.hidden v.natAbs, hneg, by omega⟩
  · exact ⟨.fallback, hzero⟩
  · exact ⟨.menuItem v.natAbs, hpos, by omega⟩

theorem kind?_eq_none_iff {t : IndexToken} :
    kind? t = none ↔ (∃ d ∈ t.digits, d.isDigit = false) ∨
      maxOrder < (value t.negative t.digits).natAbs := by
  obtain ⟨kind, hkind⟩ := exists_hasNumber (value t.negative t.digits)
  rw [Option.eq_none_iff_forall_ne_some]
  constructor
  · intro h
    by_contra hnot
    rw [not_or, not_exists, not_lt] at hnot
    refine h kind (kind?_eq_some_iff.2 ⟨fun d hd => ?_, hnot.2, hkind⟩)
    have hdigit := hnot.1 d
    rw [not_and, Bool.not_eq_false] at hdigit
    exact hdigit hd
  · rintro h kind hsome
    obtain ⟨hdigits, hle, -⟩ := kind?_eq_some_iff.1 hsome
    rcases h with ⟨d, hd, hfalse⟩ | hgreat
    · rw [hdigits d hd] at hfalse
      cases hfalse
    · exact absurd hle (Nat.not_le_of_lt hgreat)

/-! ## Texts without their tokens -/

/-- No opening bracket has a closing one behind it. -/
def Settled (cs : List Char) : Prop :=
  ∀ before after, cs = before ++ '[' :: after → ']' ∉ after

theorem Settled.cons {c : Char} {cs : List Char} (hc : c ≠ '[') (h : Settled cs) :
    Settled (c :: cs) := by
  intro before after heq
  cases before with
  | nil => exact absurd (List.cons.inj heq).1 hc
  | cons b before => exact h before after (List.cons.inj heq).2

theorem settled_of_not_mem {cs : List Char} (h : ']' ∉ cs) : Settled cs := by
  rintro before after rfl hclose
  exact h (List.mem_append_right _ (List.mem_cons_of_mem _ hclose))

/-- What is open is left over only if nothing closes it. -/
theorem settled_stripTokens (pending : Option (List Char)) (cs : List Char)
    (h : ∀ opened, pending = some opened → ']' ∉ opened) : Settled (stripTokens pending cs) := by
  induction cs generalizing pending with
  | nil =>
      cases pending with
      | none => exact settled_of_not_mem List.not_mem_nil
      | some opened =>
          rw [stripTokens]
          exact settled_of_not_mem (mt List.mem_reverse.1 (h opened rfl))
  | cons c cs ih =>
      cases pending with
      | none =>
          rw [stripTokens]
          split
          · refine ih _ ?_
            rintro _ ⟨⟩
            decide
          · next hc => exact .cons hc (ih none fun _ hnone => nomatch hnone)
      | some opened =>
          rw [stripTokens]
          split
          · exact ih none fun _ hnone => nomatch hnone
          · next hc =>
              refine ih _ ?_
              rintro _ ⟨⟩
              exact List.not_mem_cons_of_ne_of_not_mem (Ne.symm hc) (h opened rfl)

theorem stripTokens_open {cs : List Char} (h : ']' ∉ cs) (opened : List Char) :
    stripTokens (some opened) cs = opened.reverse ++ cs := by
  induction cs generalizing opened with
  | nil => rw [stripTokens, List.append_nil]
  | cons c cs ih =>
      rw [List.mem_cons, not_or] at h
      rw [stripTokens, if_neg (Ne.symm h.1), ih h.2, List.reverse_cons, List.append_assoc]
      rfl

/-- There is nothing to take out of a settled text. -/
theorem stripTokens_of_settled {cs : List Char} (h : Settled cs) : stripTokens none cs = cs := by
  induction cs with
  | nil => rfl
  | cons c cs ih =>
      rw [stripTokens]
      split
      · next hopen =>
          subst hopen
          rw [stripTokens_open (h [] cs rfl)]
          rfl
      · rw [ih fun before after heq => h (c :: before) after (congrArg (c :: ·) heq)]

theorem settled_clean (s : String) : Settled (clean s).toList := by
  rw [clean, String.toList_ofList]
  exact settled_stripTokens none _ fun _ hnone => nomatch hnone

theorem clean_clean (s : String) : clean (clean s) = clean s := by
  rw [clean, stripTokens_of_settled (settled_clean s), String.ofList_toList]

theorem stripTokens_append {cs : List Char} (h : '[' ∉ cs) (rest : List Char) :
    stripTokens none (cs ++ rest) = cs ++ stripTokens none rest := by
  induction cs with
  | nil => rfl
  | cons c cs ih =>
      rw [List.mem_cons, not_or] at h
      rw [List.cons_append, stripTokens, if_neg (Ne.symm h.1), ih h.2, List.cons_append]

theorem stripTokens_close {cs : List Char} (h : ']' ∉ cs) (opened rest : List Char) :
    stripTokens (some opened) (cs ++ ']' :: rest) = stripTokens none rest := by
  induction cs generalizing opened with
  | nil => rw [List.nil_append, stripTokens, if_pos rfl]
  | cons c cs ih =>
      rw [List.mem_cons, not_or] at h
      rw [List.cons_append, stripTokens, if_neg (Ne.symm h.1), ih h.2]

/-! ## Names with their brackets in order -/

/-- A text without brackets. -/
def Plain (cs : List Char) : Prop :=
  '[' ∉ cs ∧ ']' ∉ cs

/-- A name cut at its tokens: a text, and the text between the brackets of each token with
the text behind it. -/
structure Tokenized where
  head : List Char
  tokens : List (List Char × List Char)
  plain_head : Plain head
  plain : ∀ t ∈ tokens, Plain t.1 ∧ Plain t.2

namespace Tokenized

/-- Tokens as they are written, with the texts behind them. -/
def spell : List (List Char × List Char) → List Char
  | [] => []
  | t :: ts => '[' :: (t.1 ++ ']' :: (t.2 ++ spell ts))

/-- The name that is cut. -/
def name (n : Tokenized) : String :=
  String.ofList (n.head ++ spell n.tokens)

/-- The name without its tokens. -/
def text (n : Tokenized) : List Char :=
  n.head ++ n.tokens.flatMap (·.2)

section

variable {ts : List (List Char × List Char)}

theorem append_spell (body behind : List Char) :
    body ++ ']' :: (behind ++ spell ts) = (body ++ ']' :: behind) ++ spell ts := by
  rw [List.append_assoc]
  rfl

theorem open_not_mem {body behind : List Char} (hbody : Plain body) (hbehind : Plain behind) :
    '[' ∉ body ++ ']' :: behind := by
  rw [List.mem_append, List.mem_cons]
  rintro (hmem | heq | hmem)
  · exact hbody.1 hmem
  · exact absurd heq (by decide)
  · exact hbehind.1 hmem

theorem stripTokens_spell (h : ∀ t ∈ ts, Plain t.1 ∧ Plain t.2) :
    stripTokens none (spell ts) = ts.flatMap (·.2) := by
  induction ts with
  | nil => rfl
  | cons t ts ih =>
      obtain ⟨⟨hbody, hbehind⟩, hts⟩ := List.forall_mem_cons.1 h
      rw [spell, stripTokens, if_pos rfl, stripTokens_close hbody.2,
        stripTokens_append hbehind.1, ih hts, List.flatMap_cons]

/-- The index token that a token is, if it is one. -/
def index? (t : List Char × List Char) : Option IndexToken :=
  indexAfterBracket? (t.1 ++ ']' :: t.2)

theorem index?_eq_some_iff {t : List Char × List Char} (h : ']' ∉ t.1) {i : IndexToken} :
    index? t = some i ↔
      IsNumeral t.1 i.negative i.digits ∧ i.marked = (t.2.head? == some '_') :=
  indexAfterBracket?_close h

theorem index?_eq_none_iff {t : List Char × List Char} (h : ']' ∉ t.1) :
    index? t = none ↔ ∀ negative digits, ¬ IsNumeral t.1 negative digits := by
  rw [Option.eq_none_iff_forall_ne_some]
  constructor
  · intro hnone negative digits hnumeral
    exact hnone ⟨negative, digits, t.2.head? == some '_'⟩ ((index?_eq_some_iff h).2 ⟨hnumeral, rfl⟩)
  · intro hnone i hi
    exact hnone i.negative i.digits ((index?_eq_some_iff h).1 hi).1

theorem firstIndex?_append {cs : List Char} (h : '[' ∉ cs) (rest : List Char) :
    firstIndex? (cs ++ rest) = firstIndex? rest := by
  induction cs with
  | nil => rfl
  | cons c cs ih =>
      rw [List.mem_cons, not_or] at h
      rw [List.cons_append, firstIndex?, if_neg (Ne.symm h.1), ih h.2]

/-- Behind the text of a token comes the next token or the end, and neither is an
underscore. -/
theorem head?_append_spell (cs : List Char) :
    ((cs ++ spell ts).head? == some '_') = (cs.head? == some '_') := by
  cases cs with
  | nil => cases ts <;> rfl
  | cons c cs => rfl

/-- The first index token is looked for token by token. -/
theorem firstIndex?_spell (h : ∀ t ∈ ts, Plain t.1 ∧ Plain t.2) :
    firstIndex? (spell ts) = ts.findSome? index? := by
  induction ts with
  | nil => rfl
  | cons t ts ih =>
      obtain ⟨⟨hbody, hbehind⟩, hts⟩ := List.forall_mem_cons.1 h
      have hindex : indexAfterBracket? (t.1 ++ ']' :: (t.2 ++ spell ts)) = index? t := by
        ext i
        rw [indexAfterBracket?_close hbody.2, index?_eq_some_iff hbody.2, head?_append_spell]
      have hrest : firstIndex? (t.1 ++ ']' :: (t.2 ++ spell ts)) = ts.findSome? index? := by
        rw [append_spell, firstIndex?_append (open_not_mem hbody hbehind), ih hts]
      rw [spell, firstIndex?, if_pos rfl, hindex, hrest, List.findSome?_cons]
      cases index? t <;> rfl

/-! ### Texts in brackets -/

theorem occurs_append {cs : List Char} (h : '[' ∉ cs) (part rest : List Char) :
    Text.occurs ('[' :: part) (cs ++ rest) = Text.occurs ('[' :: part) rest := by
  induction cs with
  | nil => rfl
  | cons c cs ih =>
      rw [List.mem_cons, not_or] at h
      rw [List.cons_append, Text.occurs, ih h.2, List.isPrefixOf, beq_eq_false_iff_ne.2 h.1,
        Bool.false_and, Bool.false_or]

/-- A text stands between brackets if it is the text of a token. -/
theorem occurs_spell {part : List Char} (hpart : ']' ∉ part)
    (h : ∀ t ∈ ts, Plain t.1 ∧ Plain t.2) :
    Text.occurs ('[' :: (part ++ [']'])) (spell ts) = true ↔ ∃ t ∈ ts, t.1 = part := by
  induction ts with
  | nil =>
      exact iff_of_false (by simp [spell, Text.occurs])
        fun ⟨t, ht, _⟩ => absurd ht List.not_mem_nil
  | cons t ts ih =>
      obtain ⟨⟨hbody, hbehind⟩, hts⟩ := List.forall_mem_cons.1 h
      have hfirst : ('[' :: (part ++ [']'])).isPrefixOf
          ('[' :: (t.1 ++ ']' :: (t.2 ++ spell ts))) = true ↔ t.1 = part := by
        rw [List.isPrefixOf_iff_prefix, List.cons_prefix_cons]
        constructor
        · rintro ⟨-, rest, hrest⟩
          rw [List.append_assoc] at hrest
          exact (cut_inj hpart hbody.2 hrest).1.symm
        · rintro rfl
          exact ⟨rfl, t.2 ++ spell ts, by rw [List.append_assoc]; rfl⟩
      have hrest : Text.occurs ('[' :: (part ++ [']'])) (t.1 ++ ']' :: (t.2 ++ spell ts)) =
          Text.occurs ('[' :: (part ++ [']'])) (spell ts) := by
        rw [append_spell, occurs_append (open_not_mem hbody hbehind)]
      rw [spell, Text.occurs, Bool.or_eq_true, hfirst, hrest, ih hts]
      simp only [List.mem_cons, exists_eq_or_imp]

end

/-- The token with this text, and with the text `behind` behind it, is the first one that
spells a number. -/
structure IsIndex (n : Tokenized) (body behind : List Char) (negative : Bool)
    (digits : List Char) : Prop where
  first : ∃ before rest, n.tokens = before ++ (body, behind) :: rest ∧
    ∀ t ∈ before, ∀ negative digits, ¬ IsNumeral t.1 negative digits
  numeral : IsNumeral body negative digits

theorem toList_name (n : Tokenized) : n.name.toList = n.head ++ spell n.tokens :=
  String.toList_ofList

theorem stripTokens_name (n : Tokenized) : stripTokens none n.name.toList = n.text := by
  rw [toList_name, stripTokens_append n.plain_head.1, stripTokens_spell n.plain, text]

theorem firstIndex?_name (n : Tokenized) :
    firstIndex? n.name.toList = n.tokens.findSome? index? := by
  rw [toList_name, firstIndex?_append n.plain_head.1, firstIndex?_spell n.plain]

theorem firstIndex?_eq_none_iff (n : Tokenized) : firstIndex? n.name.toList = none ↔
    ∀ t ∈ n.tokens, ∀ negative digits, ¬ IsNumeral t.1 negative digits := by
  rw [firstIndex?_name, List.findSome?_eq_none_iff]
  exact forall₂_congr fun t ht => index?_eq_none_iff (n.plain t ht).1.2

theorem firstIndex?_eq_some_iff (n : Tokenized) {i : IndexToken} :
    firstIndex? n.name.toList = some i ↔ ∃ body behind,
      n.IsIndex body behind i.negative i.digits ∧ i.marked = (behind.head? == some '_') := by
  rw [firstIndex?_name, List.findSome?_eq_some_iff]
  constructor
  · rintro ⟨before, t, rest, htokens, hindex, hbefore⟩
    have hplain := n.plain
    rw [htokens] at hplain
    obtain ⟨hnumeral, hmarked⟩ := (index?_eq_some_iff (hplain t (by simp)).1.2).1 hindex
    refine ⟨t.1, t.2, ⟨⟨before, rest, htokens, fun u hu => ?_⟩, hnumeral⟩, hmarked⟩
    exact (index?_eq_none_iff (hplain u (by simp [hu])).1.2).1 (hbefore u hu)
  · rintro ⟨body, behind, ⟨⟨before, rest, htokens, hbefore⟩, hnumeral⟩, hmarked⟩
    have hplain := n.plain
    rw [htokens] at hplain
    refine ⟨before, (body, behind), rest, htokens, ?_, fun u hu => ?_⟩
    · exact (index?_eq_some_iff (hplain _ (by simp)).1.2).2 ⟨hnumeral, hmarked⟩
    · exact (index?_eq_none_iff (hplain u (by simp [hu])).1.2).2 (hbefore u hu)

theorem contains_protect_iff (n : Tokenized) : Text.contains "[protect]" n.name = true ↔
    ∃ t ∈ n.tokens, String.ofList t.1 = "protect" := by
  have htoken : "[protect]".toList = '[' :: ("protect".toList ++ [']']) := by decide
  rw [Text.contains, htoken, toList_name, occurs_append n.plain_head.1,
    occurs_spell (by decide) n.plain]
  refine exists_congr fun t => and_congr_right fun _ => ⟨fun h => ?_, fun h => ?_⟩
  · rw [h, String.ofList_toList]
  · rw [← h, String.toList_ofList]

end Tokenized

/-! ## The parts of a name -/

/-- The segment and the endpoint are the text, but for the underscore of a parameter: it
starts the text and is marked. -/
structure Reads (text : List Char) (marked : Bool) (p : PageName) : Prop where
  parameter : ∀ rest, text = '_' :: rest → marked = true →
    p.segment = String.ofList (':' :: rest) ∧ p.endpoint = String.ofList rest
  literal : (text.head? = some '_' → marked = false) →
    p.segment = String.ofList text ∧ p.endpoint = String.ofList text

theorem parse?_eq_none_iff {raw : String} : parse? raw = none ↔
    firstIndex? raw.toList = none ∨ ∃ t, firstIndex? raw.toList = some t ∧ kind? t = none := by
  rw [parse?]
  cases hindex : firstIndex? raw.toList with
  | none => exact iff_of_true rfl (.inl rfl)
  | some t =>
      cases hkind : kind? t with
      | none => exact iff_of_true (by simp [hkind]) (.inr ⟨t, rfl, hkind⟩)
      | some kind =>
          refine iff_of_false (by simp [hkind]) ?_
          rintro (hnone | ⟨t', ht', hnone⟩)
          · cases hnone
          · cases ht'
            rw [hkind] at hnone
            cases hnone

theorem of_parse? {raw : String} {p : PageName} (h : parse? raw = some p) :
    ∃ t, firstIndex? raw.toList = some t ∧ kind? t = some p.kind ∧
      p.protect = Text.contains "[protect]" raw ∧
      Reads (stripTokens none raw.toList) t.marked p := by
  obtain ⟨t, ht, h⟩ := Option.bind_eq_some_iff.1 h
  obtain ⟨kind, hkind, h⟩ := Option.bind_eq_some_iff.1 h
  refine ⟨t, ht, ?_⟩
  generalize stripTokens none raw.toList = text at h ⊢
  dsimp only at h
  cases hmarked : t.marked with
  | true =>
      simp only [hmarked, if_true] at h
      split at h
      · next rest =>
          cases h
          refine ⟨hkind, rfl, ?_, fun hliteral => nomatch hliteral rfl⟩
          rintro _ ⟨⟩ -
          exact ⟨rfl, rfl⟩
      · next hhead =>
          cases h
          exact ⟨hkind, rfl, fun rest heq => absurd heq (hhead rest), fun _ => ⟨rfl, rfl⟩⟩
  | false =>
      simp only [hmarked, Bool.false_eq_true, if_false] at h
      split at h <;> cases h <;>
        exact ⟨hkind, rfl, fun _ _ hfalse => (nomatch hfalse), fun _ => ⟨rfl, rfl⟩⟩

/-- A name whose brackets are in order is read token by token. Whether they are or not, no
tokens are left when they have been taken out. -/
theorem parse?_tokenized (n : Tokenized) :
    (parse? n.name = none ↔
      (∀ t ∈ n.tokens, ∀ negative digits, ¬ IsNumeral t.1 negative digits) ∨
        ∃ body behind negative digits, n.IsIndex body behind negative digits ∧
          ((∃ d ∈ digits, d.isDigit = false) ∨ 4294967295 < (value negative digits).natAbs)) ∧
    (∀ p, parse? n.name = some p → ∃ body behind negative digits,
      n.IsIndex body behind negative digits ∧ (∀ d ∈ digits, d.isDigit = true) ∧
        HasNumber (value negative digits) p.kind ∧
        (p.protect = true ↔ ∃ t ∈ n.tokens, String.ofList t.1 = "protect") ∧
        Reads n.text (behind.head? == some '_') p) ∧
    ∀ s, Settled (clean s).toList ∧ clean (clean s) = clean s := by
  refine ⟨?_, fun p hp => ?_, fun s => ⟨settled_clean s, clean_clean s⟩⟩
  · rw [parse?_eq_none_iff, n.firstIndex?_eq_none_iff]
    refine or_congr_right ⟨?_, ?_⟩
    · rintro ⟨i, hi, hkind⟩
      obtain ⟨body, behind, hindex, -⟩ := n.firstIndex?_eq_some_iff.1 hi
      exact ⟨body, behind, i.negative, i.digits, hindex, kind?_eq_none_iff.1 hkind⟩
    · rintro ⟨body, behind, negative, digits, hindex, hbad⟩
      refine ⟨⟨negative, digits, behind.head? == some '_'⟩, ?_, kind?_eq_none_iff.2 hbad⟩
      exact n.firstIndex?_eq_some_iff.2 ⟨body, behind, hindex, rfl⟩
  · obtain ⟨i, hi, hkind, hprotect, hreads⟩ := of_parse? hp
    obtain ⟨body, behind, hindex, hmarked⟩ := n.firstIndex?_eq_some_iff.1 hi
    obtain ⟨hdigits, -, hnumber⟩ := kind?_eq_some_iff.1 hkind
    rw [n.stripTokens_name, hmarked] at hreads
    refine ⟨body, behind, i.negative, i.digits, hindex, hdigits, hnumber, ?_, hreads⟩
    rw [hprotect, n.contains_protect_iff]

/-- An underscore inside a name, a marked one, and a number in another script. -/
example : parse? "a[protect][-07]_b" = some ⟨.hidden 7, true, "a_b", "a_b"⟩ ∧
    parse? "[x][+7]_id[0]" = some ⟨.menuItem 7, false, ":id", "id"⟩ ∧
    parse? "[٣][1]a" = none := by
  decide +kernel

end SiteMacros.PageName
