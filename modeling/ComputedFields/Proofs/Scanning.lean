import ComputedFields.Token.Lexer
import Mathlib.Data.List.Basic

/-!
# `ComputedFields.Proofs.Scanning` — where tokens stand and how sources are cut

Each lexeme takes as many bytes as it can, so that what comes after a token decides where it ends. A
blank ends whatever is not inside of quotes: a source may be cut before any of its tokens, and when
a blank and other bytes are put there, the tokens before the cut stay what they were. The exception
are bytes that start no lexeme: a quote that is not closed may be closed by what is put there.

* `Text.eq_of_blank` — the six blanks, which are in no class of bytes that a lexeme goes on with;
* `Lexeme.start_append_blank` — a lexeme is not changed by what comes after a blank;
* `Token.pairwise_tokenize` — every token starts after the one before it;
* `Token.scan_of_cut` — the tokens before a cut, and those after it scanned by themselves;
* `Token.scan_append_blank` — the tokens before a cut, with a blank and other bytes put there;
* `Lexeme.OneByte`, `Lexeme.spaced` — a source for each list of lexemes of one byte.
-/

namespace ComputedFields

open Text

namespace Text

/-! ## Blanks -/

theorem eq_of_blank {b : UInt8} (h : blank b = true) :
    b = 32 ∨ b = 9 ∨ b = 10 ∨ b = 11 ∨ b = 12 ∨ b = 13 := by
  simp only [blank, Bool.or_eq_true, beq_iff_eq, Bool.and_eq_true, decide_eq_true_eq,
    UInt8.le_iff_toNat_le] at h
  simp only [← UInt8.toNat_inj]
  rcases h with rfl | ⟨lower, upper⟩
  · exact .inl rfl
  · right
    change 9 ≤ b.toNat at lower
    change b.toNat ≤ 13 at upper
    show b.toNat = 9 ∨ b.toNat = 10 ∨ b.toNat = 11 ∨ b.toNat = 12 ∨ b.toNat = 13
    omega

/-- A blank goes on with no name; nor with a number, as digits are bytes of names. -/
theorem nameByte_of_blank {b : UInt8} (h : blank b = true) : nameByte b = false := by
  rcases eq_of_blank h with rfl | rfl | rfl | rfl | rfl | rfl <;> rfl

theorem nameStart_of_nameByte {b : UInt8} (h : nameByte b = false) : nameStart b = false :=
  (Bool.or_eq_false_iff.mp h).1

theorem digit_of_nameByte {b : UInt8} (h : nameByte b = false) : digit b = false :=
  (Bool.or_eq_false_iff.mp h).2

end Text

namespace Lexeme

/-! ## The bytes of a lexeme -/

/-- A text that is closed ends within the source, and does not depend on what comes after it. -/
theorem quoted_eq_some {quote : UInt8} {s contents : Text} {n : Nat}
    (h : quoted quote s = some (contents, n)) :
    n ≤ s.length ∧ ∀ t, quoted quote (s.take n ++ t) = some (contents, n) := by
  fun_induction quoted quote s generalizing contents n with
  | case1 => cases h
  | case2 b s closes =>
    cases h
    exact ⟨Nat.le_add_left .., fun t => by unfold quoted; simp [closes]⟩
  | case3 => cases h
  | case4 b other escape e s ih =>
    obtain ⟨⟨inner, k⟩, closed, same⟩ := Option.map_eq_some_iff.mp h
    cases same
    obtain ⟨le, reads⟩ := ih closed
    exact ⟨Nat.add_le_add_right le 2, fun t => by simp [quoted, other, escape, reads]⟩
  | case5 b s other plain ih =>
    obtain ⟨⟨inner, k⟩, closed, same⟩ := Option.map_eq_some_iff.mp h
    cases same
    obtain ⟨le, reads⟩ := ih closed
    exact ⟨Nat.add_le_add_right le 1, fun t => by unfold quoted; simp [other, plain, reads]⟩

theorem quoted_append {quote : UInt8} {s₁ s₂ contents : Text} {n : Nat}
    (h : quoted quote (s₁ ++ s₂) = some (contents, n)) (enough : n ≤ s₁.length) (t : Text) :
    quoted quote (s₁ ++ t) = some (contents, n) := by
  have reads := (quoted_eq_some h).2 (s₁.drop n ++ t)
  rwa [List.take_append_of_le_length enough, ← List.append_assoc, List.take_append_drop] at reads

theorem takeWhile_append_cons {p : UInt8 → Bool} {c : UInt8} (other : p c = false) {s₁ s₂ : Text}
    (enough : ((s₁ ++ s₂).takeWhile p).length ≤ s₁.length) (t : Text) :
    (s₁ ++ c :: t).takeWhile p = (s₁ ++ s₂).takeWhile p := by
  induction s₁ with
  | nil =>
    have none : s₂.takeWhile p = [] := List.length_eq_zero_iff.mp (Nat.le_zero.mp enough)
    rw [List.nil_append, List.nil_append, none, List.takeWhile_cons, other]
    rfl
  | cons b s ih =>
    simp only [List.cons_append, List.takeWhile_cons] at enough ⊢
    split at enough
    · rw [ih (Nat.le_of_succ_le_succ enough)]
    · next outside => rw [if_neg outside, if_neg outside]

theorem length_fraction_le (s : Text) : (fraction s).length ≤ s.length := by
  unfold fraction
  split
  · next b c s =>
    have le := (List.takeWhile_prefix digit (l := s)).length_le
    split
    · simpa using le
    · exact Nat.zero_le _
  · exact Nat.zero_le _

theorem length_digits_le (s : Text) : (digits s).length ≤ s.length := by
  have le := length_fraction_le (s.dropWhile digit)
  have split := congrArg List.length (List.takeWhile_append_dropWhile (p := digit) (l := s))
  rw [List.length_append] at split
  rw [digits, List.length_append]
  omega

section

variable {blank : UInt8} (isBlank : Text.blank blank = true)
include isBlank

/-- A point that a blank follows is not part of a number. -/
theorem fraction_append_blank {b : UInt8} {s₁ s₂ : Text}
    (enough : (fraction (b :: (s₁ ++ s₂))).length ≤ s₁.length + 1) (t : Text) :
    fraction (b :: (s₁ ++ blank :: t)) = fraction (b :: (s₁ ++ s₂)) := by
  have other : digit blank = false := digit_of_nameByte (nameByte_of_blank isBlank)
  cases s₁ with
  | nil =>
    cases s₂ with
    | nil => simp [fraction, other]
    | cons c s =>
      simp only [fraction, List.nil_append, other, Bool.and_false] at enough ⊢
      split at enough
      · simp at enough
      · next none => rw [if_neg none]; rfl
  | cons c s =>
    simp only [fraction, List.cons_append] at enough ⊢
    split at enough
    · rw [takeWhile_append_cons other (by simpa using enough)]
    · next none => rw [if_neg none, if_neg none]

theorem digits_append_blank {s₁ s₂ : Text} (enough : (digits (s₁ ++ s₂)).length ≤ s₁.length)
    (t : Text) : digits (s₁ ++ blank :: t) = digits (s₁ ++ s₂) := by
  induction s₁ with
  | nil =>
    have none : digits s₂ = [] := List.length_eq_zero_iff.mp (Nat.le_zero.mp enough)
    rw [List.nil_append, List.nil_append, none]
    rcases eq_of_blank isBlank with rfl | rfl | rfl | rfl | rfl | rfl <;> cases t <;> rfl
  | cons b s ih =>
    by_cases inside : digit b
    · simp only [digits, List.cons_append, List.takeWhile_cons_of_pos inside,
        List.dropWhile_cons_of_pos inside] at enough ih ⊢
      rw [ih (Nat.le_of_succ_le_succ enough)]
    · simp only [digits, List.cons_append, List.takeWhile_cons_of_neg inside,
        List.dropWhile_cons_of_neg inside, List.nil_append] at enough ⊢
      exact fraction_append_blank isBlank enough t

omit isBlank in
/-- An operator of two bytes is made with the byte that comes next. -/
theorem operator?_eq_some {b : UInt8} {s : Text} {op : Operator} {n : Nat}
    (h : operator? b s = some (op, n)) : n ≤ s.length := by
  unfold operator? at h
  cases s with
  | nil =>
    obtain ⟨_, -, same⟩ := Option.map_eq_some_iff.mp h
    cases same
    exact Nat.le_refl 0
  | cons c s =>
    split at h
    · cases h
      exact Nat.le_add_left ..
    · obtain ⟨_, -, same⟩ := Option.map_eq_some_iff.mp h
      cases same
      exact Nat.zero_le _

theorem operator?_append_blank {b : UInt8} {s₁ s₂ : Text}
    (enough : ∀ op n, operator? b (s₁ ++ s₂) = some (op, n) → n ≤ s₁.length) (t : Text) :
    operator? b (s₁ ++ blank :: t) = operator? b (s₁ ++ s₂) := by
  cases s₁ with
  | nil =>
    have alone : pair? b blank = none := by
      refine List.find?_eq_none.mpr fun op _ spelled => ?_
      have last : op.spelling.getLast? = some blank := congrArg List.getLast? (eq_of_beq spelled)
      rcases eq_of_blank isBlank with rfl | rfl | rfl | rfl | rfl | rfl <;>
        cases op <;> revert last <;> decide
    simp only [operator?, List.nil_append] at enough ⊢
    split at enough
    · next op pair =>
      exact absurd (enough op 1 rfl) (Nat.not_succ_le_zero 0)
    · next none => rw [List.head?_cons, Option.bind_some, alone]
  | cons c s => rfl

/-- Whether a name comes next is decided before a blank, when the name of which it is decided ends
there. -/
theorem head_append_blank {s₁ s₂ : Text}
    (enough : ((s₁ ++ s₂).head?.map nameStart).getD false = true →
      ((s₁ ++ s₂).takeWhile nameByte).length ≤ s₁.length) (t : Text) :
    ((s₁ ++ blank :: t).head?.map nameStart).getD false =
      ((s₁ ++ s₂).head?.map nameStart).getD false := by
  have other : nameStart blank = false := nameStart_of_nameByte (nameByte_of_blank isBlank)
  cases s₁ with
  | cons c s => rfl
  | nil =>
    cases s₂ with
    | nil => exact other
    | cons c s =>
      cases name : nameStart c with
      | false => simp [name, other]
      | true =>
        have inside : nameByte c = true := by rw [nameByte, name, Bool.true_or]
        have le := enough name
        rw [List.nil_append, List.takeWhile_cons_of_pos inside] at le
        exact absurd le (Nat.not_succ_le_zero _)

omit isBlank in
/-- A lexeme ends within the source. -/
theorem start_le (b : UInt8) (s : Text) : (start b s).2 ≤ s.length := by
  have word := (List.takeWhile_prefix nameByte (l := s)).length_le
  unfold start
  split
  · next op n operator => exact operator?_eq_some operator
  · split
    · split
      · next closed => exact (quoted_eq_some closed).1
      · exact Nat.zero_le _
    · split
      · exact word
      · split
        · exact word
        · split
          · exact length_digits_le s
          · split <;> exact Nat.zero_le _

omit isBlank in
theorem start_ne_eof (b : UInt8) (s : Text) : (start b s).1 ≠ .eof := by
  unfold start
  split
  · nofun
  · repeat' split
    all_goals nofun

/-- A lexeme is the same when a blank comes after its last byte or later, unless it is a byte that
starts none. -/
theorem start_append_blank {b : UInt8} {s₁ s₂ : Text}
    (enough : (start b (s₁ ++ s₂)).2 ≤ s₁.length)
    (regular : ∀ c, (start b (s₁ ++ s₂)).1 ≠ .stray c) (t : Text) :
    start b (s₁ ++ blank :: t) = start b (s₁ ++ s₂) := by
  have operator : operator? b (s₁ ++ blank :: t) = operator? b (s₁ ++ s₂) := by
    refine operator?_append_blank isBlank (fun op n some => ?_) t
    rw [start, some] at enough
    exact enough
  have word (le : ((s₁ ++ s₂).takeWhile nameByte).length ≤ s₁.length) :
      (s₁ ++ blank :: t).takeWhile nameByte = (s₁ ++ s₂).takeWhile nameByte :=
    takeWhile_append_cons (nameByte_of_blank isBlank) le t
  simp only [start, operator] at enough regular ⊢
  split
  · rfl
  · next none =>
    simp only [none] at enough regular
    split
    · next isQuote =>
      rw [if_pos isQuote] at enough regular
      split at enough
      · next contents n closed => rw [quoted_append closed enough]
      · next unclosed =>
        rw [unclosed] at regular
        exact absurd rfl (regular b)
    · next noQuote =>
      rw [if_neg noQuote] at enough
      have head : (b == '@'.toUInt8 && ((s₁ ++ blank :: t).head?.map nameStart).getD false) =
          (b == '@'.toUInt8 && ((s₁ ++ s₂).head?.map nameStart).getD false) := by
        cases isAt : b == '@'.toUInt8 with
        | false => rfl
        | true =>
          refine congrArg (true && ·) (head_append_blank isBlank (fun name => ?_) t)
          rw [isAt, name, Bool.true_and, if_pos rfl] at enough
          exact enough
      rw [head]
      split
      · next mention =>
        rw [if_pos mention] at enough
        rw [word enough]
      · next noMention =>
        rw [if_neg noMention] at enough
        split
        · next name =>
          rw [if_pos name] at enough
          rw [word enough]
        · next noName =>
          rw [if_neg noName] at enough
          split
          · next number =>
            rw [if_pos number] at enough
            rw [digits_append_blank isBlank enough]
          · rfl

end

end Lexeme

namespace Token

/-! ## Where tokens stand -/

/-- The tokens are no ends of sources and stand within the bytes that they are taken from, one after
another. -/
theorem pairwise_scanFrom (skip position : Nat) (s : Text) :
    (∀ token ∈ scanFrom skip position s, token.lexeme ≠ .eof ∧
      position + skip ≤ token.position ∧ token.position < position + s.length) ∧
    (scanFrom skip position s).Pairwise (·.position < ·.position) := by
  fun_induction scanFrom skip position s with
  | case1 => exact ⟨List.forall_mem_nil _, .nil⟩
  | case2 position skip b s ih =>
    refine ⟨fun token mem => ?_, ih.2⟩
    obtain ⟨regular, lower, upper⟩ := ih.1 token mem
    rw [List.length_cons]
    exact ⟨regular, by omega, by omega⟩
  | case3 position b s _ ih =>
    refine ⟨fun token mem => ?_, ih.2⟩
    obtain ⟨regular, lower, upper⟩ := ih.1 token mem
    rw [List.length_cons]
    exact ⟨regular, by omega, by omega⟩
  | case4 position b s _ lexeme n start ih =>
    refine ⟨List.forall_mem_cons.mpr ⟨⟨?_, by simp⟩, fun token mem => ?_⟩,
      List.pairwise_cons.mpr ⟨fun token mem => ?_, ih.2⟩⟩
    · have regular := Lexeme.start_ne_eof b s
      rwa [start] at regular
    · obtain ⟨regular, lower, upper⟩ := ih.1 token mem
      rw [List.length_cons]
      exact ⟨regular, by omega, by omega⟩
    · have lower := (ih.1 token mem).2.1
      show position < token.position
      omega

theorem pairwise_scanFrom_append (skip position : Nat) (s : Text) :
    (scanFrom skip position s ++ [Token.mk .eof (position + s.length)]).Pairwise
      (fun token later => token.position < later.position) := by
  obtain ⟨within, ordered⟩ := pairwise_scanFrom skip position s
  refine List.pairwise_append.mpr
    ⟨ordered, List.pairwise_singleton .., fun token mem last isLast => ?_⟩
  rw [List.mem_singleton.mp isLast]
  exact (within token mem).2.2

/-- Every token starts after the one before it, and the source ends after that. -/
theorem pairwise_tokenize (source : Text) :
    (tokenize source).Pairwise (·.position < ·.position) := by
  have ordered := pairwise_scanFrom_append 0 0 source
  rwa [Nat.zero_add] at ordered

theorem position_ne_of_eq_append {source : Text} {before after : List Token} {token : Token}
    (h : tokenize source = before ++ token :: after) :
    ∀ other ∈ before ++ after, other.position ≠ token.position := by
  have ordered := pairwise_tokenize source
  rw [h, List.pairwise_append, List.pairwise_cons] at ordered
  obtain ⟨-, ⟨later, -⟩, earlier⟩ := ordered
  intro other mem
  rcases List.mem_append.mp mem with inBefore | inAfter
  · exact Nat.ne_of_lt (earlier other inBefore token (List.mem_cons_self ..))
  · exact Nat.ne_of_gt (later other inAfter)

theorem position_le_of_mem {source : Text} {token : Token} (mem : token ∈ tokenize source) :
    token.position ≤ source.length := by
  rcases List.mem_append.mp mem with inside | last
  · have upper := ((pairwise_scanFrom 0 0 source).1 token inside).2.2
    omega
  · exact Nat.le_of_eq (congrArg Token.position (List.mem_singleton.mp last))

/-- Every lexeme is one that some bytes start with. -/
theorem exists_start_of_mem_scanFrom {skip position : Nat} {s : Text} {token : Token}
    (mem : token ∈ scanFrom skip position s) : ∃ b t, (Lexeme.start b t).1 = token.lexeme := by
  fun_induction scanFrom skip position s with
  | case1 => cases mem
  | case2 _ _ _ _ ih => exact ih mem
  | case3 _ _ _ _ ih => exact ih mem
  | case4 position b s _ lexeme n start ih =>
    rcases List.mem_cons.mp mem with rfl | later
    · exact ⟨b, s, by rw [start]⟩
    · exact ih later

/-! ## Cuts -/

/-- The bytes of a token that is taken already. -/
theorem scanFrom_length (s t : Text) (position : Nat) :
    scanFrom s.length position (s ++ t) = scanFrom 0 (position + s.length) t := by
  induction s generalizing position with
  | nil => rfl
  | cons b s ih =>
    rw [List.length_cons, List.cons_append, scanFrom, ih]
    congr 1
    omega

/-- Blanks are passed over. -/
theorem scanFrom_blanks {s : Text} (blanks : ∀ b ∈ s, blank b = true) (t : Text) (position : Nat) :
    scanFrom 0 position (s ++ t) = scanFrom 0 (position + s.length) t := by
  induction s generalizing position with
  | nil => rfl
  | cons b s ih =>
    obtain ⟨first, others⟩ := List.forall_mem_cons.mp blanks
    rw [List.cons_append, scanFrom, if_pos first, ih others, List.length_cons]
    congr 1
    omega

/-- No token comes before the end of what is skipped, nor does the end of the source when no more is
skipped than there is. -/
theorem le_position_of_eq_append {skip position : Nat} {s : Text} {before after : List Token}
    {token : Token} (skipped : skip ≤ s.length)
    (h : scanFrom skip position s ++ [⟨.eof, position + s.length⟩] = before ++ token :: after) :
    ∀ first ∈ before ++ token :: after, position + skip ≤ first.position := by
  rw [← h]
  intro first mem
  rcases List.mem_append.mp mem with inside | last
  · exact ((pairwise_scanFrom skip position s).1 first inside).2.1
  · rw [List.mem_singleton.mp last]
    exact Nat.add_le_add_left skipped position

/-- The bytes `t` may come after a cut instead of `s₂`, if that changes none of the lexemes that end
before it. Then the tokens before the cut stay the same, and `t` is scanned by itself. -/
theorem scanFrom_append_of_cut {skip position : Nat} {s₁ s₂ t : Text} {before after : List Token}
    {token : Token} (skipped : skip ≤ s₁.length)
    (h : scanFrom skip position (s₁ ++ s₂) ++ [⟨.eof, position + (s₁ ++ s₂).length⟩] =
      before ++ token :: after)
    (cut : token.position = position + s₁.length)
    (regular : ∀ token ∈ before, ∀ c, token.lexeme ≠ .stray c)
    (same : ∀ b s, (Lexeme.start b (s ++ s₂)).2 ≤ s.length →
      (∀ c, (Lexeme.start b (s ++ s₂)).1 ≠ .stray c) →
      Lexeme.start b (s ++ t) = Lexeme.start b (s ++ s₂)) :
    scanFrom skip position (s₁ ++ t) = before ++ scanFrom 0 (position + s₁.length) t := by
  induction s₁ generalizing skip position before with
  | nil =>
    obtain rfl : skip = 0 := Nat.le_zero.mp skipped
    cases before with
    | nil => rfl
    | cons first before =>
      -- no token is before the cut
      rw [List.nil_append] at h
      have lower := le_position_of_eq_append (Nat.zero_le _) h first (List.mem_cons_self ..)
      have ordered := pairwise_scanFrom_append 0 position s₂
      rw [h, List.cons_append, List.pairwise_cons] at ordered
      have upper := ordered.1 token (List.mem_append_right _ (List.mem_cons_self ..))
      rw [List.length_nil] at cut
      omega
  | cons c s ih =>
    rw [List.length_cons] at cut skipped
    have next : position + s.length.succ = position + 1 + s.length := by omega
    have ending : position + (c :: s ++ s₂).length = position + 1 + (s ++ s₂).length := by
      rw [List.cons_append, List.length_cons]
      omega
    rw [ending] at h
    rw [List.length_cons, next]
    rw [next] at cut
    cases skip with
    | succ skip => exact ih (Nat.le_of_succ_le_succ skipped) h cut regular
    | zero =>
      by_cases blank : blank c
      · simp only [List.cons_append, scanFrom, if_pos blank] at h ⊢
        exact ih (Nat.zero_le _) h cut regular
      · simp only [List.cons_append, scanFrom, if_neg blank] at h ⊢
        cases before with
        | nil =>
          injection h with first
          rw [← first] at cut
          have later : position = position + 1 + s.length := cut
          omega
        | cons first before =>
          injection h with isFirst later
          obtain ⟨regular, others⟩ := List.forall_mem_cons.mp regular
          subst isFirst
          have lower := le_position_of_eq_append (Lexeme.start_le c (s ++ s₂)) later token
            (List.mem_append_right _ (List.mem_cons_self ..))
          have enough : (Lexeme.start c (s ++ s₂)).2 ≤ s.length := by omega
          rw [same c s enough regular]
          exact congrArg _ (ih enough later cut others)

section

variable {source : Text} {before after : List Token} {token : Token}
  (h : tokenize source = before ++ token :: after)
  (regular : ∀ token ∈ before, ∀ c, token.lexeme ≠ .stray c)
include h regular

theorem scan_append_of_cut {t : Text}
    (same : ∀ b s, (Lexeme.start b (s ++ source.drop token.position)).2 ≤ s.length →
      (∀ c, (Lexeme.start b (s ++ source.drop token.position)).1 ≠ .stray c) →
      Lexeme.start b (s ++ t) = Lexeme.start b (s ++ source.drop token.position)) :
    scan (source.take token.position ++ t) = before ++ scanFrom 0 token.position t := by
  have le : token.position ≤ source.length :=
    position_le_of_mem (h ▸ List.mem_append_right _ (List.mem_cons_self ..))
  have length : (source.take token.position).length = token.position := List.length_take_of_le le
  have whole : scanFrom 0 0 (source.take token.position ++ source.drop token.position) ++
      [⟨.eof, 0 + (source.take token.position ++ source.drop token.position).length⟩] =
        before ++ token :: after := by
    rw [List.take_append_drop, Nat.zero_add]
    exact h
  have cut := scanFrom_append_of_cut (Nat.zero_le _) whole (by omega) regular same
  rwa [length, Nat.zero_add] at cut

/-- When a source is cut before a token, the tokens from there on are those that the bytes after the
cut have by themselves. -/
theorem scan_of_cut :
    scan source = before ++ scanFrom 0 token.position (source.drop token.position) := by
  have whole := scan_append_of_cut h regular (t := source.drop token.position)
    fun _ _ _ _ => rfl
  rwa [List.take_append_drop] at whole

/-- When a source is cut before a token, and a blank and other bytes are put there, the tokens
before the cut stay the same. -/
theorem scan_append_blank {blank : UInt8} (isBlank : Text.blank blank = true) (t : Text) :
    scan (source.take token.position ++ blank :: t) =
      before ++ scanFrom 0 (token.position + 1) t := by
  rw [scan_append_of_cut h regular fun _ _ enough regular =>
    Lexeme.start_append_blank isBlank enough regular t, scanFrom, if_pos isBlank]

end

end Token

/-! ## Lexemes of one byte -/

namespace Lexeme

/-- A lexeme that is spelled by one byte, and is read from this byte when a blank comes next. -/
def OneByte (lexeme : Lexeme) : Prop :=
  ∃ b, lexeme.bytes = [b] ∧ Text.blank b = false ∧ ∀ s, start b (32 :: s) = (lexeme, 0)

theorem oneByte_mark (m : Mark) : OneByte (.mark m) := by
  cases m <;> exact ⟨_, rfl, rfl, fun _ => rfl⟩

/-- The source with a blank after each lexeme. -/
def spaced (lexemes : List Lexeme) : Text := lexemes.flatMap fun lexeme => lexeme.bytes ++ [32]

theorem map_lexeme_scanFrom_spaced {lexemes : List Lexeme} (h : ∀ lexeme ∈ lexemes, OneByte lexeme)
    (p : Nat) : (Token.scanFrom 0 p (spaced lexemes)).map (·.lexeme) = lexemes := by
  induction lexemes generalizing p with
  | nil => rfl
  | cons lexeme rest ih =>
    obtain ⟨⟨b, bytes, notBlank, starts⟩, others⟩ := List.forall_mem_cons.mp h
    have source : spaced (lexeme :: rest) = b :: 32 :: spaced rest := by
      rw [spaced, List.flatMap_cons, bytes]
      rfl
    have scan : Token.scanFrom 0 p (b :: 32 :: spaced rest) =
        ⟨lexeme, p⟩ :: Token.scanFrom 0 (p + 2) (spaced rest) := by
      rw [Token.scanFrom, notBlank, starts]
      rfl
    rw [source, scan, List.map_cons, ih others]

end Lexeme

end ComputedFields
