import Mathlib.Data.List.Basic
import Mathlib.Tactic.Common
/-!
# Self-delimiting codes

The words of a code over `β`: a first letter that no word has behind its first one, and that says how long the word is.  In a
text of words every place of a first letter is the start of a word (`boundary`), and a text of words that stands at such a
place is made of words of the text (`words_prefix`).
-/
namespace SelfDelimiting

variable {β : Type*}

structure Code (β : Type*) where
  /-- The letters behind the first one. -/
  tail : β → Bool
  /-- How many there are behind a first letter. -/
  tails : β → Nat

variable (C : Code β)

inductive IsWord : List β → Prop where
  | mk {b : β} {bs : List β} : C.tail b = false → (∀ c ∈ bs, C.tail c = true) → bs.length = C.tails b → IsWord (b :: bs)

variable {C} {ws vs : List (List β)} {w l : List β}

theorem IsWord.ne_nil (h : IsWord C w) : w ≠ [] := by
  cases h
  exact List.cons_ne_nil _ _

theorem length_le_flatten : ∀ {ws : List (List β)}, (∀ w ∈ ws, IsWord C w) → ws.length ≤ ws.flatten.length
  | [], _ => Nat.le_refl _
  | w :: ws, h => by
    have hpos := List.length_pos_iff.2 (h w List.mem_cons_self).ne_nil
    have hrest := length_le_flatten fun v hv => h v (List.mem_cons_of_mem _ hv)
    rw [List.flatten_cons, List.length_append, List.length_cons]
    omega

/-- A text of words is empty or begins with a first letter. -/
theorem head_flatten (h : ∀ w ∈ ws, IsWord C w) : ∀ b ∈ ws.flatten.head?, C.tail b = false := by
  cases ws with
  | nil => simp
  | cons w ws =>
    cases h w List.mem_cons_self with
    | mk hb _ _ =>
      intro b hhead
      obtain rfl := Option.some.inj hhead
      exact hb

/-- **A place of a first letter is the start of a word.** -/
theorem boundary : ∀ {ws : List (List β)} {pos : Nat} {b : β} {rest : List β}, (∀ w ∈ ws, IsWord C w) →
    ws.flatten.drop pos = b :: rest → C.tail b = false → ∃ pre post, ws = pre ++ post ∧ pre.flatten.length = pos
  | [], pos, b, rest, _, hdrop, _ => by simp at hdrop
  | w :: ws, pos, b, rest, h, hdrop, hb => by
    cases hw : h w List.mem_cons_self with
    | @mk first tails hfirst htails _ =>
      cases pos with
      | zero => exact ⟨[], _, rfl, rfl⟩
      | succ pos =>
        rw [List.flatten_cons, List.cons_append, List.drop_succ_cons] at hdrop
        by_cases hin : pos < tails.length
        · have hmem : b ∈ tails := by
            rw [List.drop_append_of_le_length (Nat.le_of_lt hin), List.drop_eq_getElem_cons hin, List.cons_append] at hdrop
            obtain ⟨rfl, -⟩ := List.cons.inj hdrop
            exact List.getElem_mem hin
          exact absurd (htails b hmem) (by rw [hb]; exact Bool.false_ne_true)
        · rw [List.drop_append, List.drop_of_length_le (Nat.le_of_not_lt hin), List.nil_append] at hdrop
          obtain ⟨pre, post, rfl, hlen⟩ := boundary (fun v hv => h v (List.mem_cons_of_mem _ hv)) hdrop hb
          refine ⟨(first :: tails) :: pre, post, rfl, ?_⟩
          rw [List.flatten_cons, List.length_append, hlen, List.length_cons]
          omega

/-- **Words in front of a text of words are words of it.** -/
theorem words_prefix : ∀ {vs ws : List (List β)} {rest : List β}, (∀ v ∈ vs, IsWord C v) → (∀ w ∈ ws, IsWord C w) →
    vs.flatten ++ rest = ws.flatten → ∃ post, ws = vs ++ post
  | [], ws, _, _, _, _ => ⟨ws, rfl⟩
  | v :: vs, [], rest, hv, _, heq => by
    have hnil := (List.append_eq_nil_iff.1 heq).1
    rw [List.flatten_cons] at hnil
    exact absurd (List.append_eq_nil_iff.1 hnil).1 (hv v List.mem_cons_self).ne_nil
  | v :: vs, w :: ws, rest, hv, hw, heq => by
    have hvw : v = w ∧ vs.flatten ++ rest = ws.flatten := by
      rw [List.flatten_cons, List.flatten_cons, List.append_assoc] at heq
      cases hv v List.mem_cons_self with
      | @mk a as _ _ ha =>
        cases hw w List.mem_cons_self with
        | @mk b bs _ _ hb =>
          obtain ⟨rfl, htail⟩ := List.cons.inj heq
          obtain ⟨rfl, hrest⟩ := List.append_inj htail (ha.trans hb.symm)
          exact ⟨rfl, hrest⟩
    obtain ⟨rfl, hrest⟩ := hvw
    obtain ⟨post, rfl⟩ := words_prefix (fun u hu => hv u (List.mem_cons_of_mem _ hu))
      (fun u hu => hw u (List.mem_cons_of_mem _ hu)) hrest
    exact ⟨post, rfl⟩

/-- Behind the first letter of a word the letters that are no first ones are those of the word. -/
theorem dropWhile_tail {bs : List β} (hbs : ∀ c ∈ bs, C.tail c = true) (hl : ∀ b ∈ l.head?, C.tail b = false) :
    (bs ++ l).dropWhile C.tail = l := by
  rw [List.dropWhile_append_of_pos hbs]
  cases l with
  | nil => rfl
  | cons b l => rw [List.dropWhile_cons_of_neg (by rw [hl b rfl]; exact Bool.false_ne_true)]

end SelfDelimiting
