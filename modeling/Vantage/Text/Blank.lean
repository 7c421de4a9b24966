/-
**White space, and texts without it at their ends.**

Main definitions:

* `Text.isBlank` — the characters with the property White_Space;
* `Text.trim` — a text without the white space at either end;
* `Text.Stripped` — what is left of a text when the white space at its ends is taken away.

Main results:

* `Text.trim_eq_self` — a text that begins and ends with other characters is not changed;
* `Text.trim_append_blanks` — white space around a text makes no difference;
* `Text.stripped_iff` — what is left is what `Text.trim` leaves, and nothing else.
-/

set_option relaxedAutoImplicit false
set_option autoImplicit false

namespace Vantage.Text

/-- The code points of white space. -/
def blanks : List Nat :=
  [0x9, 0xa, 0xb, 0xc, 0xd, 0x20, 0x85, 0xa0, 0x1680, 0x2000, 0x2001, 0x2002, 0x2003, 0x2004,
    0x2005, 0x2006, 0x2007, 0x2008, 0x2009, 0x200a, 0x2028, 0x2029, 0x202f, 0x205f, 0x3000]

/-- Whether a character is white space. -/
def isBlank (c : Char) : Bool := blanks.contains c.toNat

/-- A text without the white space at its end. -/
def trimEnd (cs : List Char) : List Char := (cs.reverse.dropWhile isBlank).reverse

/-- A text without the white space at either end. -/
def trim (cs : List Char) : List Char := trimEnd (cs.dropWhile isBlank)

theorem dropWhile_blanks_append {bs : List Char} (h : ∀ c ∈ bs, isBlank c = true)
    (cs : List Char) : (bs ++ cs).dropWhile isBlank = cs.dropWhile isBlank := by
  induction bs with
  | nil => rfl
  | cons b bs ih =>
    rw [List.cons_append, List.dropWhile_cons_of_pos (h b (by simp))]
    exact ih fun c hc => h c (by simp [hc])

theorem trimEnd_append_blanks {bs : List Char} (h : ∀ c ∈ bs, isBlank c = true)
    (cs : List Char) : trimEnd (cs ++ bs) = trimEnd cs := by
  rw [trimEnd, List.reverse_append, dropWhile_blanks_append (by simpa using h), trimEnd]

/-- A text that neither begins nor ends with white space is not changed. -/
theorem trim_eq_self {cs : List Char} (hfirst : ∀ c, cs.head? = some c → isBlank c = false)
    (hlast : ∀ c, cs.getLast? = some c → isBlank c = false) : trim cs = cs := by
  have key : ∀ {l : List Char}, (∀ c, l.head? = some c → isBlank c = false) →
      l.dropWhile isBlank = l := by
    intro l hl
    cases l with
    | nil => rfl
    | cons c l => rw [List.dropWhile_cons_of_neg (by simp [hl c rfl])]
  rw [trim, key hfirst, trimEnd, key (by simpa using hlast), List.reverse_reverse]

/-- White space around a text that neither begins nor ends with it makes no difference. -/
theorem trim_append_blanks {before after cs : List Char} (hb : ∀ c ∈ before, isBlank c = true)
    (ha : ∀ c ∈ after, isBlank c = true) (hcs : cs ≠ [])
    (hfirst : ∀ c, cs.head? = some c → isBlank c = false)
    (hlast : ∀ c, cs.getLast? = some c → isBlank c = false) :
    trim (before ++ cs ++ after) = cs := by
  obtain ⟨c, rest, rfl⟩ := List.exists_cons_of_ne_nil hcs
  have hc : ¬ isBlank c = true := by simp [hfirst c rfl]
  have hdrop : (before ++ (c :: rest) ++ after).dropWhile isBlank = (c :: rest) ++ after := by
    rw [List.append_assoc, dropWhile_blanks_append hb, List.cons_append,
      List.dropWhile_cons_of_neg hc]
  have hself := trim_eq_self hfirst hlast
  rw [trim, List.dropWhile_cons_of_neg hc] at hself
  rw [trim, hdrop, trimEnd_append_blanks ha, hself]

/-! ### What is left of a text -/

/-- What is left of a text when the white space at its ends is taken away. -/
structure Stripped (cs t : List Char) : Prop where
  around : ∃ before after, cs = before ++ t ++ after ∧
    (∀ c ∈ before, isBlank c = true) ∧ ∀ c ∈ after, isBlank c = true
  first : ∀ c, t.head? = some c → isBlank c = false
  last : ∀ c, t.getLast? = some c → isBlank c = false

theorem dropWhile_head {l : List Char} {c : Char} (h : (l.dropWhile isBlank).head? = some c) :
    isBlank c = false := by
  have := List.head?_dropWhile_not isBlank l
  rw [h] at this
  exact this

theorem takeWhile_blank {l : List Char} {c : Char} (h : c ∈ l.takeWhile isBlank) :
    isBlank c = true :=
  List.all_eq_true.1 List.all_takeWhile c h

theorem stripped_trim (cs : List Char) : Stripped cs (trim cs) := by
  have hend : cs.dropWhile isBlank =
      trim cs ++ ((cs.dropWhile isBlank).reverse.takeWhile isBlank).reverse := by
    rw [trim, trimEnd, ← List.reverse_append, List.takeWhile_append_dropWhile,
      List.reverse_reverse]
  refine ⟨⟨cs.takeWhile isBlank, ((cs.dropWhile isBlank).reverse.takeWhile isBlank).reverse, ?_,
    fun c => takeWhile_blank, ?_⟩, ?_, ?_⟩
  · rw [List.append_assoc, ← hend, List.takeWhile_append_dropWhile]
  · intro c hc
    exact takeWhile_blank (List.mem_reverse.1 hc)
  · -- the text begins as it did before the white space at its end was taken away
    intro c hc
    refine dropWhile_head (l := cs) ?_
    rw [hend, List.head?_append, hc]
    rfl
  · intro c hc
    rw [trim, trimEnd, List.getLast?_reverse] at hc
    exact dropWhile_head hc

/-- **What is left of a text is what `trim` leaves.** -/
theorem stripped_iff {cs t : List Char} : Stripped cs t ↔ t = trim cs := by
  constructor
  · rintro ⟨⟨before, after, rfl, hbefore, hafter⟩, hfirst, hlast⟩
    cases t with
    | nil =>
        have hblank : ∀ c ∈ before ++ [] ++ after, isBlank c = true := by
          intro c hc
          rw [List.append_nil] at hc
          exact (List.mem_append.1 hc).elim (hbefore c) (hafter c)
        have hdrop := dropWhile_blanks_append hblank []
        rw [List.append_nil] at hdrop
        rw [trim, hdrop]
        rfl
    | cons c rest =>
        exact (trim_append_blanks hbefore hafter (List.cons_ne_nil _ _) hfirst hlast).symm
  · rintro rfl
    exact stripped_trim cs

/-- White space around a text that has none is all that is taken away. -/
theorem trim_around {before after t : List Char} (hb : ∀ c ∈ before, isBlank c = true)
    (ha : ∀ c ∈ after, isBlank c = true) (ht : ∀ c ∈ t, isBlank c = false) :
    trim (before ++ t ++ after) = t :=
  (stripped_iff.1 ⟨⟨before, after, rfl, hb, ha⟩, fun c hc => ht c (List.mem_of_head? hc),
    fun c hc => ht c (List.mem_of_getLast? hc)⟩).symm

end Vantage.Text
