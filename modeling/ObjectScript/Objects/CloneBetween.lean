import Mathlib.Data.List.Forall2
import ObjectScript.Core.Value
import ObjectScript.Lib.Descent
import ObjectScript.Lib.Entries
/-!
# The copy of a value into another instance

`pushCloneValueFrom` copies a value of another instance of the runtime and leaves the copy on the stack: an array element by
element, an object key by key.  It does not remember what it has copied.

It returns exactly when the value reaches no cycle, and then there is one more value on the stack, with the elements and
keys of the original in their order (`pushCloneValueFrom_iff`); a value that holds itself is copied forever
(`self_never_copied`).
-/
namespace ObjectScript
namespace Objects

open ObjectScript.Core (Number)
open Entries Descent Relation

/-- A value between instances.  Those that are `other` (functions, userdata) are not copied. -/
inductive Datum (α N : Type) where
  | null
  | bool (boolean : Bool)
  | number (x : N)
  | string (text : List UInt8)
  /-- An array or an object. -/
  | ref (value : α)
  | other

namespace Datum

variable {α N : Type} [DecidableEq α] [Number N]

/-- `OS_EQUAL_EXACTLY`; strings are collected once for each text. -/
def equalExactly : Datum α N → Datum α N → Bool
  | null, null => true
  | bool a, bool b => a == b
  | number x, number y => Number.equal x y
  | string s, string t => s == t
  | ref a, ref b => a == b
  | _, _ => false

instance : BEq (Datum α N) := ⟨equalExactly⟩

end Datum

/-- The bytes of `prototype`. -/
def syntax_prototype : List UInt8 := [112, 114, 111, 116, 111, 116, 121, 112, 101]

/-- The properties of an object.  `setPropertyValue` makes the key `prototype` no property. -/
structure DatumTable (α N : Type) [DecidableEq α] [Number N] where
  entries : List (Datum α N × Datum α N)
  distinct : Distinct entries
  prototype : ∀ p ∈ entries, p.1 ≠ .string syntax_prototype

inductive Node (α N : Type) [DecidableEq α] [Number N] where
  | array (values : List (Datum α N))
  | object (table : DatumTable α N)

inductive Copy (N : Type) where
  | array (values : List (Datum Nat N))
  | object (table : List (Datum Nat N × Datum Nat N))

structure Receiver (N : Type) where
  /-- The top first. -/
  stack_values : List (Datum Nat N)
  nodes : List (Copy N)

namespace Receiver

variable {N : Type} [Number N]

def push (s : Receiver N) (v : Datum Nat N) : Receiver N := { s with stack_values := v :: s.stack_values }

/-- `pushArrayValue` and `pushObjectValue`: the new value is on the stack. -/
def pushNode (s : Receiver N) (node : Copy N) : Receiver N := ⟨.ref s.nodes.length :: s.stack_values, s.nodes ++ [node]⟩

/-- `setPropertyValue` without setters. -/
def setPropertyValue (s : Receiver N) (object index value : Datum Nat N) : Receiver N :=
  match object with
  | .ref d => { s with nodes := s.nodes.modify d fun node =>
      match node with
      | .object table =>
        if (find table index).isSome then .object (put table index value)
        else if index == .string syntax_prototype then .object table
        else .object (table ++ [(index, value)])
      | .array values => .array values }
  | _ => s

def setProperty (s : Receiver N) : Receiver N :=
  match s.stack_values with
  | value :: index :: object :: rest => { s.setPropertyValue object index value with stack_values := rest }
  | _ => s

/-- The value on the stack becomes an element of the array. -/
def addItem (s : Receiver N) (dest_arr : Nat) : Receiver N :=
  match s.stack_values with
  | value :: rest =>
    { stack_values := rest
      nodes := s.nodes.modify dest_arr fun node =>
        match node with
        | .array values => .array (values ++ [value])
        | .object table => .object table }
  | [] => s

def pushStackValue (s : Receiver N) : Receiver N :=
  match s.stack_values with
  | value :: rest => { s with stack_values := value :: value :: rest }
  | [] => s

end Receiver

section

variable {α N : Type} [DecidableEq α] [Number N] (other : α → Node α N)

/-- `pushCloneValueFrom`, a recursion of at most `fuel` levels. -/
def pushCloneValueFrom : Nat → Receiver N → Datum α N → Option (Receiver N)
  | 0, _, _ => none
  | fuel + 1, s, other_val =>
    match other_val with
    | .null => some (s.push .null)
    | .bool boolean => some (s.push (.bool boolean))
    | .number x => some (s.push (.number x))
    | .string text => some (s.push (.string text))
    | .other => some (s.push .null)
    | .ref a =>
      match other a with
      | .array values =>
        values.foldlM (fun t value => (pushCloneValueFrom fuel t value).map fun t => t.addItem s.nodes.length)
          (s.pushNode (.array []))
      | .object table =>
        table.entries.foldlM (fun t prop => do
            let t ← pushCloneValueFrom fuel t.pushStackValue prop.1
            let t ← pushCloneValueFrom fuel t prop.2
            some t.setProperty)
          (s.pushNode (.object []))

/-! ## What a copy is to be -/

def Node.parts : Node α N → List (Datum α N)
  | .array values => values
  | .object table => table.entries.flatMap fun p => [p.1, p.2]

def Copy.parts : Copy N → List (Datum Nat N)
  | .array values => values
  | .object table => table.flatMap fun p => [p.1, p.2]

/-- The array or object is a part of the other one. -/
def PartOf (a b : α) : Prop := .ref b ∈ (other a).parts

/-- A value and its copy have the same contents, down to this depth: the same elements or keys, in the same order. -/
def Alike (nodes : List (Copy N)) : Nat → Datum α N → Datum Nat N → Prop
  | 0, _, _ => True
  | _ + 1, .null, .null => True
  | _ + 1, .bool a, .bool b => a = b
  | _ + 1, .number x, .number y => x = y
  | _ + 1, .string s, .string t => s = t
  | depth + 1, .ref a, .ref d =>
    match other a, nodes[d]? with
    | .array values, some (.array copies) => List.Forall₂ (Alike nodes depth) values copies
    | .object table, some (.object copies) =>
      List.Forall₂ (fun p q => Alike nodes depth p.1 q.1 ∧ Alike nodes depth p.2 q.2) table.entries copies
    | _, _ => False
  | _ + 1, _, _ => False

def Datum.Acyclic (v : Datum α N) : Prop := ∀ a, v = .ref a → Descent.Acyclic (PartOf other) a

/-- The value is built of arrays and objects: it reaches no other collected value than strings. -/
def Datum.Plain (v : Datum α N) : Prop :=
  v ≠ .other ∧ ∀ a, v = .ref a → ∀ b, ReflTransGen (PartOf other) a b → .other ∉ (other b).parts

/-- The copy returns with one more value on the stack; for a value without cycles that one has the same contents. -/
def Copied (v : Datum α N) (s : Receiver N) : Prop :=
  ∃ fuel s' w, pushCloneValueFrom other fuel s v = some s' ∧ s'.stack_values = w :: s.stack_values ∧
    (v.Acyclic other → ∀ depth, Alike other s'.nodes depth v w)

/-! ## Parts of the receiver -/

def Within (lo hi : Nat) (w : Datum Nat N) : Prop := ∀ d, w = .ref d → lo ≤ d ∧ d < hi

/-- What is in this part refers to nothing outside it. -/
def Closed (nodes : List (Copy N)) (lo hi : Nat) : Prop :=
  ∀ d node, lo ≤ d → d < hi → nodes[d]? = some node → ∀ w ∈ node.parts, Within lo hi w

def Same (nodes nodes' : List (Copy N)) (lo hi : Nat) : Prop := ∀ d, lo ≤ d → d < hi → nodes'[d]? = nodes[d]?

variable {other}

omit [DecidableEq α] [Number N] in
theorem Within.mono {lo hi lo' hi' : Nat} {w : Datum Nat N} (h : Within lo hi w) (hlo : lo' ≤ lo) (hhi : hi ≤ hi') :
    Within lo' hi' w := fun d hd => ⟨Nat.le_trans hlo (h d hd).1, Nat.lt_of_lt_of_le (h d hd).2 hhi⟩

omit [Number N] in
theorem Copy.mem_parts {table : List (Datum Nat N × Datum Nat N)} {p : Datum Nat N × Datum Nat N} (hp : p ∈ table) :
    p.1 ∈ (Copy.object table).parts ∧ p.2 ∈ (Copy.object table).parts :=
  ⟨List.mem_flatMap.2 ⟨p, hp, List.mem_cons_self⟩, List.mem_flatMap.2 ⟨p, hp, List.mem_cons_of_mem _ List.mem_cons_self⟩⟩

theorem forall₂_of_mem {A B : Type} {R S : A → B → Prop} : ∀ {l : List A} {l' : List B}, List.Forall₂ R l l' →
    (∀ a, ∀ b ∈ l', R a b → S a b) → List.Forall₂ S l l'
  | _, _, .nil, _ => .nil
  | _, _, .cons hab hl, h =>
    .cons (h _ _ List.mem_cons_self hab) (forall₂_of_mem hl fun a b hb => h a b (List.mem_cons_of_mem _ hb))

/-- Only an array or an object is a copy of one. -/
theorem Alike.exists_ref {nodes : List (Copy N)} {depth : Nat} {a : α} {w : Datum Nat N}
    (h : Alike other nodes (depth + 1) (.ref a) w) : ∃ d, w = .ref d := by
  cases w with
  | ref d => exact ⟨d, rfl⟩
  | null | bool b | number x | string t | other => exact h.elim

/-- What is no array and no object is compared without the nodes, at any depth. -/
theorem Alike.of_leaf {nodes nodes' : List (Copy N)} {depth depth' : Nat} {v : Datum α N} {w : Datum Nat N}
    (hv : ∀ a, v ≠ .ref a) (h : Alike other nodes (depth + 1) v w) : Alike other nodes' (depth' + 1) v w := by
  cases v with
  | ref a => exact absurd rfl (hv a)
  | null | bool b | number x | string t | other => cases w <;> exact h

/-- A value is still like its copy when nothing was changed in the part that holds the copy. -/
theorem Alike.congr {nodes nodes' : List (Copy N)} {lo hi : Nat} (hsame : Same nodes nodes' lo hi)
    (hclosed : Closed nodes lo hi) : ∀ (depth : Nat) {v : Datum α N} {w : Datum Nat N}, Within lo hi w →
      Alike other nodes depth v w → Alike other nodes' depth v w
  | 0, _, _, _, _ => trivial
  | depth + 1, v, w, hw, h => by
    by_cases href : ∃ a, v = .ref a
    · obtain ⟨a, rfl⟩ := href
      obtain ⟨d, rfl⟩ := h.exists_ref
      obtain ⟨hlo, hhi⟩ := hw d rfl
      unfold Alike at h ⊢
      rw [hsame d hlo hhi]
      cases hnode : nodes[d]? with
      | none =>
        rw [hnode] at h
        cases hother : other a <;> (rw [hother] at h; exact h)
      | some node =>
        rw [hnode] at h
        have hparts := hclosed d node hlo hhi hnode
        cases hother : other a with
        | array values =>
          rw [hother] at h
          cases node with
          | object table => exact h
          | array copies =>
            exact forall₂_of_mem h fun x y hy hxy => Alike.congr hsame hclosed depth (hparts y hy) hxy
        | object table =>
          rw [hother] at h
          cases node with
          | array copies => exact h
          | object copies =>
            refine forall₂_of_mem h fun p q hq hpq => ?_
            have hparts' := Copy.mem_parts hq
            exact ⟨Alike.congr hsame hclosed depth (hparts _ hparts'.1) hpq.1,
              Alike.congr hsame hclosed depth (hparts _ hparts'.2) hpq.2⟩
    · exact h.of_leaf (not_exists.1 href)

/-- The copy of one value: it is on the stack, and is all that is new. -/
structure CopyOf (other : α → Node α N) (v : Datum α N) (s s' : Receiver N) (w : Datum Nat N) : Prop where
  stack : s'.stack_values = w :: s.stack_values
  grown : s.nodes.length ≤ s'.nodes.length
  old : Same s.nodes s'.nodes 0 s.nodes.length
  within : Within s.nodes.length s'.nodes.length w
  closed : Closed s'.nodes s.nodes.length s'.nodes.length
  alike : v.Plain other → ∀ depth, Alike other s'.nodes depth v w

/-- The node `d` is being made behind those there were: the new nodes refer to new nodes only. -/
structure Made (d : Nat) (base nodes : List (Copy N)) : Prop where
  length : base.length = d
  grown : d < nodes.length
  old : Same base nodes 0 d
  closed : Closed nodes (d + 1) nodes.length
  parts : ∀ node, nodes[d]? = some node → ∀ w ∈ node.parts, Within (d + 1) nodes.length w

namespace Made

variable {d : Nat} {base nodes : List (Copy N)}

theorem copy (h : Made d base nodes) {v : Datum α N} {s s' : Receiver N} {w : Datum Nat N} (hs : s.nodes = nodes)
    (hcopy : CopyOf other v s s' w) : Made d base s'.nodes ∧ Within (d + 1) s'.nodes.length w := by
  subst hs
  refine ⟨⟨h.length, Nat.lt_of_lt_of_le h.grown hcopy.grown, ?_, ?_, ?_⟩, hcopy.within.mono h.grown (Nat.le_refl _)⟩
  · intro e he hlt
    rw [hcopy.old e he (Nat.lt_trans hlt h.grown), h.old e he hlt]
  · intro e node hlo hhi hnode w hw
    by_cases he : e < s.nodes.length
    · rw [hcopy.old e (Nat.zero_le _) he] at hnode
      exact (h.closed e node hlo he hnode w hw).mono (Nat.le_refl _) hcopy.grown
    · exact (hcopy.closed e node (Nat.le_of_not_lt he) hhi hnode w hw).mono h.grown (Nat.le_refl _)
  · intro node hnode w hw
    rw [hcopy.old d (Nat.zero_le _) h.grown] at hnode
    exact (h.parts node hnode w hw).mono (Nat.le_refl _) hcopy.grown

omit [Number N] in
theorem modify (h : Made d base nodes) {f : Copy N → Copy N}
    (hf : ∀ node, nodes[d]? = some node → ∀ w ∈ (f node).parts, w ∈ node.parts ∨ Within (d + 1) nodes.length w) :
    Made d base (nodes.modify d f) := by
  have hlength : (nodes.modify d f).length = nodes.length := List.length_modify ..
  have hne : ∀ {e}, e ≠ d → (nodes.modify d f)[e]? = nodes[e]? := fun he => List.getElem?_modify_ne _ _ (Ne.symm he)
  refine ⟨h.length, hlength ▸ h.grown, fun e he hlt => ?_, ?_, ?_⟩
  · rw [hne (Nat.ne_of_lt hlt), h.old e he hlt]
  · intro e node hlo hhi hnode w hw
    rw [hne (Nat.ne_of_gt hlo)] at hnode
    rw [hlength] at hhi ⊢
    exact h.closed e node hlo hhi hnode w hw
  · intro node hnode w hw
    rw [List.getElem?_modify_eq, Option.map_eq_map, Option.map_eq_some_iff] at hnode
    obtain ⟨node, hnode, rfl⟩ := hnode
    rw [hlength]
    rcases hf node hnode w hw with hold | hnew
    · exact h.parts node hnode w hold
    · exact hnew

omit [Number N] in
theorem closed_all (h : Made d base nodes) : Closed nodes d nodes.length := by
  intro e node hlo hhi hnode w hw
  rcases Nat.eq_or_lt_of_le hlo with rfl | hlt
  · exact (h.parts node hnode w hw).mono (Nat.le_succ _) (Nat.le_refl _)
  · exact (h.closed e node hlt hhi hnode w hw).mono (Nat.le_succ _) (Nat.le_refl _)

omit [Number N] in
theorem start (base : List (Copy N)) {node : Copy N} (hnode : node.parts = []) : Made base.length base (base ++ [node]) := by
  have hlength : (base ++ [node]).length = base.length + 1 := by rw [List.length_append, List.length_singleton]
  refine ⟨rfl, by omega, fun e _ hlt => List.getElem?_append_left hlt, fun e _ hlo hhi => by omega, fun node' hnode' w hw => ?_⟩
  rw [List.getElem?_append_right (Nat.le_refl _), Nat.sub_self] at hnode'
  obtain rfl := Option.some.inj hnode'
  rw [hnode] at hw
  cases hw

end Made

/-! ## The two loops -/

variable (other)

/-- A recursion of this depth copies the value, whatever the receiver is. -/
def Clones (fuel : Nat) (v : Datum α N) : Prop :=
  ∀ s, ∃ s' w, pushCloneValueFrom other fuel s v = some s' ∧ CopyOf other v s s' w

/-- The node `d` was begun on the stack of `s₀`. -/
structure Building (s₀ s : Receiver N) : Prop where
  stack : s.stack_values = .ref s₀.nodes.length :: s₀.stack_values
  made : Made s₀.nodes.length s₀.nodes s.nodes

variable {other}

/-- The new values hold no copy that a change of `d` would touch. -/
theorem Alike.modify {d : Nat} {base nodes nodes' : List (Copy N)} (h : Made d base nodes)
    (hold : Same nodes nodes' 0 nodes.length) (f : Copy N → Copy N) {depth : Nat} {v : Datum α N} {w : Datum Nat N}
    (hw : Within (d + 1) nodes.length w) (ha : Alike other nodes depth v w) :
    Alike other (nodes'.modify d f) depth v w := by
  refine Alike.congr (fun e hlo hhi => ?_) h.closed depth hw ha
  rw [List.getElem?_modify_ne _ _ (Nat.ne_of_lt hlo), hold e (Nat.zero_le _) hhi]

omit [Number N] in
theorem addItem_eq {s : Receiver N} {w : Datum Nat N} {rest : List (Datum Nat N)} (h : s.stack_values = w :: rest) (d : Nat) :
    s.addItem d = ⟨rest, s.nodes.modify d fun node =>
      match node with
      | .array values => .array (values ++ [w])
      | .object table => .object table⟩ := by
  rw [Receiver.addItem, h]

/-- **The loop over the elements.** -/
theorem foldlM_values {fuel : Nat} {s₀ : Receiver N} : ∀ {values : List (Datum α N)} (done : List (Datum α N))
    {copies : List (Datum Nat N)} {s : Receiver N}, (∀ x ∈ values, Clones other fuel x) → Building s₀ s →
    s.nodes[s₀.nodes.length]? = some (.array copies) →
    ((∀ x ∈ done, x.Plain other) → ∀ depth, List.Forall₂ (Alike other s.nodes depth) done copies) →
    ∃ s' copies', values.foldlM (fun t value => (pushCloneValueFrom other fuel t value).map fun t => t.addItem s₀.nodes.length) s =
        some s' ∧ Building s₀ s' ∧ s'.nodes[s₀.nodes.length]? = some (.array copies') ∧
      ((∀ x ∈ done ++ values, x.Plain other) →
        ∀ depth, List.Forall₂ (Alike other s'.nodes depth) (done ++ values) copies')
  | [], done, copies, s, _, hb, hnode, halike => ⟨s, copies, rfl, hb, hnode, by rw [List.append_nil]; exact halike⟩
  | x :: values, done, copies, s, hclones, hb, hnode, halike => by
    obtain ⟨s1, w, hs1, hcopy⟩ := hclones x List.mem_cons_self s
    obtain ⟨hmade, hw⟩ := hb.made.copy rfl hcopy
    have hstack : s1.stack_values = w :: s.stack_values := hcopy.stack
    have hnode1 : s1.nodes[s₀.nodes.length]? = some (.array copies) := by
      rw [hcopy.old _ (Nat.zero_le _) hb.made.grown, hnode]
    obtain ⟨f, hf⟩ : ∃ f : Copy N → Copy N, f = fun node =>
      match node with
      | .array values => .array (values ++ [w])
      | .object table => .object table := ⟨_, rfl⟩
    have hadd : s1.addItem s₀.nodes.length = ⟨s.stack_values, s1.nodes.modify s₀.nodes.length f⟩ := by
      rw [addItem_eq hstack, hf]
    have hb1 : Building s₀ (s1.addItem s₀.nodes.length) := by
      rw [hadd]
      refine ⟨hb.stack, hmade.modify fun node hnode' v hv => ?_⟩
      rw [hnode1] at hnode'
      obtain rfl := Option.some.inj hnode'
      rw [hf] at hv
      rcases List.mem_append.1 hv with hold | hnew
      · exact .inl hold
      · rw [List.mem_singleton.1 hnew]
        exact .inr hw
    have hnode2 : (s1.addItem s₀.nodes.length).nodes[s₀.nodes.length]? = some (.array (copies ++ [w])) := by
      rw [hadd, List.getElem?_modify_eq, hnode1, hf]
      rfl
    have halike2 : (∀ y ∈ done ++ [x], y.Plain other) →
        ∀ depth, List.Forall₂ (Alike other (s1.addItem s₀.nodes.length).nodes depth) (done ++ [x]) (copies ++ [w]) := by
      intro hplain depth
      rw [hadd]
      refine List.rel_append (forall₂_of_mem (halike (fun y hy => hplain y (List.mem_append_left _ hy)) depth)
        fun y v hv hyv => ?_) (.cons ?_ .nil)
      · exact hyv.modify hb.made hcopy.old f (hb.made.parts _ hnode v hv)
      · exact (hcopy.alike (hplain x (List.mem_append_right _ List.mem_cons_self)) depth).modify hmade (fun _ _ _ => rfl) f hw
    obtain ⟨s', copies', hs', hb', hnode', halike'⟩ :=
      foldlM_values _ (fun y hy => hclones y (List.mem_cons_of_mem _ hy)) hb1 hnode2 halike2
    refine ⟨s', copies', ?_, hb', hnode', ?_⟩
    · rw [List.foldlM_cons, hs1]
      exact hs'
    · rw [List.append_assoc, List.singleton_append] at halike'
      exact halike'

/-- The copy of what is no array and no object is the value itself. -/
theorem Alike.leaf {nodes : List (Copy N)} {v : Datum α N} {w : Datum Nat N} (h : Alike other nodes 1 v w) :
    match w with
    | .null => v = .null
    | .bool b => v = .bool b
    | .number x => v = .number x
    | .string t => v = .string t
    | .ref _ => ∃ a, v = .ref a
    | .other => False := by
  cases v with
  | ref a => cases w <;> first | exact h.elim | exact ⟨a, rfl⟩
  | null => cases w <;> first | exact h.elim | rfl
  | bool b => cases w <;> first | exact h.elim | exact congrArg _ h
  | number x => cases w <;> first | exact h.elim | exact congrArg _ h
  | string t => cases w <;> first | exact h.elim | exact congrArg _ h
  | other => cases w <;> exact h.elim

/-- Two copies are equal as keys when the values are, or when they are one array or object. -/
theorem Alike.beq {nodes nodes' : List (Copy N)} {k k' : Datum α N} {q w : Datum Nat N} (hq : Alike other nodes 1 k q)
    (hw : Alike other nodes' 1 k' w) (heq : (q == w) = true) : (k == k') = true ∨ ∃ d, q = .ref d ∧ w = .ref d := by
  have hk := hq.leaf
  have hk' := hw.leaf
  cases q with
  | null =>
    cases w <;> cases heq
    exact .inl (by rw [hk, hk']; rfl)
  | bool b =>
    cases w <;> first | cases heq | skip
    exact .inl (by rw [hk, hk']; exact heq)
  | number x =>
    cases w <;> first | cases heq | skip
    exact .inl (by rw [hk, hk']; exact heq)
  | string t =>
    cases w <;> first | cases heq | skip
    exact .inl (by rw [hk, hk']; exact heq)
  | ref d =>
    cases w <;> first | cases heq | skip
    rename_i e
    obtain rfl : d = e := of_decide_eq_true heq
    exact .inr ⟨d, rfl, rfl⟩
  | other => exact hk.elim

theorem forall₂_right {A B : Type} {R : A → B → Prop} : ∀ {l : List A} {l' : List B}, List.Forall₂ R l l' →
    ∀ b ∈ l', ∃ a ∈ l, R a b
  | _, _, .cons hab hl, b, hb => by
    rcases List.mem_cons.1 hb with rfl | hb
    · exact ⟨_, List.mem_cons_self, hab⟩
    · obtain ⟨a, ha, hab⟩ := forall₂_right hl b hb
      exact ⟨a, List.mem_cons_of_mem _ ha, hab⟩

/-- What `setPropertyValue` does to the object. -/
def setEntry (index value : Datum Nat N) (node : Copy N) : Copy N :=
  match node with
  | .object table =>
    if (find table index).isSome then .object (put table index value)
    else if index == .string syntax_prototype then .object table
    else .object (table ++ [(index, value)])
  | .array values => .array values

theorem setProperty_eq {s : Receiver N} {index value : Datum Nat N} {d : Nat} {rest : List (Datum Nat N)}
    (h : s.stack_values = value :: index :: .ref d :: rest) :
    s.setProperty = ⟨rest, s.nodes.modify d (setEntry index value)⟩ := by
  rw [Receiver.setProperty, h]
  rfl

theorem parts_setEntry {index value w : Datum Nat N} {node : Copy N} (hw : w ∈ (setEntry index value node).parts) :
    w ∈ node.parts ∨ w = index ∨ w = value := by
  cases node with
  | array values => exact .inl hw
  | object table =>
    rw [setEntry] at hw
    split at hw
    · obtain ⟨p, hp, hw⟩ := List.mem_flatMap.1 hw
      rcases mem_put hp with hold | ⟨hval, hkey⟩
      · exact .inl (List.mem_flatMap.2 ⟨p, hold, hw⟩)
      · rcases List.mem_cons.1 hw with rfl | hw
        · rcases hkey with hkey | ⟨q, hq, hkey⟩
          · exact .inr (.inl hkey)
          · exact .inl (List.mem_flatMap.2 ⟨q, hq, hkey ▸ List.mem_cons_self⟩)
        · exact .inr (.inr ((List.mem_singleton.1 hw).trans hval))
    · split at hw
      · exact .inl hw
      · rw [Copy.parts, List.flatMap_append] at hw
        rcases List.mem_append.1 hw with hold | hnew
        · exact .inl hold
        · rcases List.mem_cons.1 hnew with rfl | hnew
          · exact .inr (.inl rfl)
          · exact .inr (.inr (List.mem_singleton.1 hnew))

theorem setEntry_new {index value : Datum Nat N} {table : List (Datum Nat N × Datum Nat N)} (hnone : find table index = none)
    (hproto : ¬ (index == .string syntax_prototype) = true) :
    setEntry index value (.object table) = .object (table ++ [(index, value)]) := by
  rw [setEntry, hnone, Option.isSome_none, if_neg Bool.false_ne_true, if_neg hproto]

theorem setEntry_object (index value : Datum Nat N) (table : List (Datum Nat N × Datum Nat N)) :
    ∃ table', setEntry index value (.object table) = .object table' := by
  rw [setEntry]
  split
  · exact ⟨_, rfl⟩
  · split <;> exact ⟨_, rfl⟩

/-- **The loop over the properties.** -/
theorem foldlM_props {fuel : Nat} {s₀ : Receiver N} : ∀ {props : List (Datum α N × Datum α N)}
    (done : List (Datum α N × Datum α N)) {s : Receiver N} {copies : List (Datum Nat N × Datum Nat N)},
    (∀ p ∈ props, Clones other fuel p.1 ∧ Clones other fuel p.2) →
    Distinct (done ++ props) → (∀ p ∈ props, p.1 ≠ .string syntax_prototype) → Building s₀ s →
    s.nodes[s₀.nodes.length]? = some (.object copies) →
    ((∀ p ∈ done, p.1.Plain other ∧ p.2.Plain other) → ∀ depth, List.Forall₂
      (fun p q => Alike other s.nodes depth p.1 q.1 ∧ Alike other s.nodes depth p.2 q.2) done copies) →
    ∃ s' copies', props.foldlM (fun t prop => do
          let t ← pushCloneValueFrom other fuel t.pushStackValue prop.1
          let t ← pushCloneValueFrom other fuel t prop.2
          some t.setProperty) s = some s' ∧
      Building s₀ s' ∧ s'.nodes[s₀.nodes.length]? = some (.object copies') ∧
      ((∀ p ∈ done ++ props, p.1.Plain other ∧ p.2.Plain other) → ∀ depth, List.Forall₂
        (fun p q => Alike other s'.nodes depth p.1 q.1 ∧ Alike other s'.nodes depth p.2 q.2) (done ++ props) copies')
  | [], done, s, copies, _, _, _, hb, hnode, halike => ⟨s, copies, rfl, hb, hnode, by rw [List.append_nil]; exact halike⟩
  | p :: props, done, s, copies, hclones, hdistinct, hproto, hb, hnode, halike => by
    obtain ⟨hkey, hval⟩ := hclones p List.mem_cons_self
    obtain ⟨s1, w, hs1, hcopy⟩ := hkey s.pushStackValue
    obtain ⟨s2, u, hs2, hcopy2⟩ := hval s1
    have hpush : s.pushStackValue = ⟨.ref s₀.nodes.length :: s.stack_values, s.nodes⟩ := by
      rw [Receiver.pushStackValue, hb.stack]
    obtain ⟨hmade, hw⟩ := hb.made.copy (by rw [hpush]) hcopy
    obtain ⟨hmade2, hu⟩ := hmade.copy rfl hcopy2
    have hset : s2.setProperty = ⟨s.stack_values, s2.nodes.modify s₀.nodes.length (setEntry w u)⟩ :=
      setProperty_eq (by rw [hcopy2.stack, hcopy.stack, hpush])
    have hold : Same s.nodes s1.nodes 0 s.nodes.length := by
      have h := hcopy.old
      rw [hpush] at h
      exact h
    have hnode1 : s1.nodes[s₀.nodes.length]? = some (.object copies) := by
      rw [hold _ (Nat.zero_le _) hb.made.grown, hnode]
    have hnode2 : s2.nodes[s₀.nodes.length]? = some (.object copies) := by
      rw [hcopy2.old _ (Nat.zero_le _) hmade.grown, hnode1]
    have hb1 : Building s₀ s2.setProperty := by
      rw [hset]
      refine ⟨hb.stack, hmade2.modify fun node hnode' v hv => ?_⟩
      rcases parts_setEntry hv with hv | rfl | rfl
      · exact .inl hv
      · exact .inr (hw.mono (Nat.le_refl _) hcopy2.grown)
      · exact .inr hu
    obtain ⟨table, htable⟩ := setEntry_object w u copies
    have hnode3 : s2.setProperty.nodes[s₀.nodes.length]? = some (.object table) := by
      rw [hset, List.getElem?_modify_eq, hnode2, ← htable]
      rfl
    have hfresh : ∀ q ∈ copies, ∀ d', q.1 = .ref d' → w ≠ .ref d' := by
      intro q hq d' hd hwd
      have hlt := (hb.made.parts _ hnode q.1 (List.mem_flatMap.2 ⟨q, hq, List.mem_cons_self⟩) d' hd).2
      have hle := (hcopy.within d' hwd).1
      rw [hpush] at hle
      exact absurd hlt (Nat.not_lt.2 hle)
    have halike2 : (∀ q ∈ done ++ [p], q.1.Plain other ∧ q.2.Plain other) → ∀ depth, List.Forall₂
        (fun p q => Alike other s2.setProperty.nodes depth p.1 q.1 ∧ Alike other s2.setProperty.nodes depth p.2 q.2)
        (done ++ [p]) table := by
      intro hplain depth
      have hdone := halike fun q hq => hplain q (List.mem_append_left _ hq)
      obtain ⟨hplainKey, hplainVal⟩ := hplain p (List.mem_append_right _ List.mem_cons_self)
      have hkeyAlike := hcopy.alike hplainKey
      -- No key there is equals the new one, so that it is added behind them.
      have hnone : find copies w = none := by
        refine find_eq_none.2 fun q hq heq => ?_
        obtain ⟨p', hp', hkey', -⟩ := forall₂_right (hdone 1) q hq
        rcases hkey'.beq (hkeyAlike 1) heq with hsame | ⟨d', hd, hwd⟩
        · exact (List.pairwise_append.1 hdistinct).2.2 p' hp' p List.mem_cons_self hsame
        · exact hfresh q hq d' hd hwd
      have hne : ¬ (w == .string syntax_prototype) = true := by
        intro heq
        cases w with
        | string t =>
          have hleaf : p.1 = .string t := (hkeyAlike 1).leaf
          exact hproto p List.mem_cons_self (hleaf.trans (congrArg _ (beq_iff_eq.1 heq)))
        | null => cases heq
        | bool b => cases heq
        | number x => cases heq
        | ref d => cases heq
        | other => cases heq
      rw [setEntry_new hnone hne] at htable
      obtain rfl := Copy.object.inj htable
      rw [hset]
      have hold2 : Same s.nodes s2.nodes 0 s.nodes.length := fun e he hlt => by
        rw [hcopy2.old e he (Nat.lt_of_lt_of_le hlt (by have := hcopy.grown; rw [hpush] at this; exact this)), hold e he hlt]
      refine List.rel_append (forall₂_of_mem (hdone depth) fun q v hv hqv => ?_) (.cons ?_ .nil)
      · have ⟨hkey, hval⟩ := Copy.mem_parts hv
        exact ⟨hqv.1.modify hb.made hold2 _ (hb.made.parts _ hnode _ hkey),
          hqv.2.modify hb.made hold2 _ (hb.made.parts _ hnode _ hval)⟩
      · exact ⟨(hkeyAlike depth).modify hmade hcopy2.old _ hw,
          (hcopy2.alike hplainVal depth).modify hmade2 (fun _ _ _ => rfl) _ hu⟩
    obtain ⟨s', copies', hs', hb', hnode', halike'⟩ := foldlM_props _ (fun q hq => hclones q (List.mem_cons_of_mem _ hq))
      (by rw [List.append_assoc]; exact hdistinct) (fun q hq => hproto q (List.mem_cons_of_mem _ hq)) hb1 hnode3 halike2
    refine ⟨s', copies', ?_, hb', hnode', ?_⟩
    · rw [List.foldlM_cons, hs1]
      simp only [Option.bind_eq_bind, Option.bind_some, hs2]
      exact hs'
    · rw [List.append_assoc, List.singleton_append] at halike'
      exact halike'

/-! ## Copies of values without cycles -/

theorem Datum.Plain.part {a : α} (h : (Datum.ref a : Datum α N).Plain other) {x : Datum α N} (hx : x ∈ (other a).parts) :
    x.Plain other := by
  refine ⟨fun hother => h.2 a rfl a .refl (hother ▸ hx), fun b hb c hc => h.2 a rfl c (.head ?_ hc)⟩
  rw [PartOf, ← hb]
  exact hx

theorem copyOf_push (s : Receiver N) {v : Datum α N} {w : Datum Nat N} (hw : ∀ d, w ≠ .ref d)
    (halike : v.Plain other → Alike other s.nodes 1 v w) (hv : ∀ a, v ≠ .ref a) : CopyOf other v s (s.push w) w where
  stack := rfl
  grown := Nat.le_refl _
  old _ _ _ := rfl
  within d hd := absurd hd (hw d)
  closed d node hlo hhi := absurd hhi (Nat.not_lt.2 hlo)
  alike hplain depth := by
    have h := halike hplain
    cases depth with
    | zero => trivial
    | succ depth => exact h.of_leaf hv

theorem Building.copyOf {a : α} {s s' : Receiver N} (hb : Building s s')
    (halike : (Datum.ref a : Datum α N).Plain other → ∀ depth, Alike other s'.nodes (depth + 1) (.ref a) (.ref s.nodes.length)) :
    CopyOf other (.ref a) s s' (.ref s.nodes.length) where
  stack := hb.stack
  grown := Nat.le_of_lt hb.made.grown
  old := hb.made.old
  within d hd := by
    obtain rfl := Datum.ref.inj hd
    exact ⟨Nat.le_refl _, hb.made.grown⟩
  closed := hb.made.closed_all
  alike hplain depth := by
    cases depth with
    | zero => trivial
    | succ depth => exact halike hplain depth

theorem eventually_all {A : Type} {P : Nat → A → Prop} : ∀ {l : List A}, (∀ x ∈ l, ∃ n, ∀ m, n ≤ m → P m x) →
    ∃ n, ∀ m, n ≤ m → ∀ x ∈ l, P m x
  | [], _ => ⟨0, fun m _ x hx => absurd hx List.not_mem_nil⟩
  | x :: l, h => by
    obtain ⟨n, hn⟩ := h x List.mem_cons_self
    obtain ⟨n', hn'⟩ := eventually_all fun y hy => h y (List.mem_cons_of_mem _ hy)
    refine ⟨max n n', fun m hm y hy => ?_⟩
    rcases List.mem_cons.1 hy with rfl | hy
    · exact hn m (Nat.le_trans (Nat.le_max_left _ _) hm)
    · exact hn' m (Nat.le_trans (Nat.le_max_right _ _) hm) y hy

theorem clones_ref {fuel : Nat} {a : α} (h : ∀ x ∈ (other a).parts, Clones other fuel x) :
    Clones other (fuel + 1) (.ref a) := by
  intro s
  cases hnode : other a with
  | array values =>
    rw [hnode] at h
    have hb : Building s (s.pushNode (.array [])) := ⟨rfl, Made.start _ rfl⟩
    obtain ⟨s', copies, hs', hb', hnode', halike⟩ := foldlM_values [] h hb
      (by rw [Receiver.pushNode, List.getElem?_append_right (Nat.le_refl _), Nat.sub_self]; rfl) (fun _ _ => .nil)
    refine ⟨s', _, ?_, hb'.copyOf fun hplain depth => ?_⟩
    · simp only [pushCloneValueFrom, hnode]
      exact hs'
    · unfold Alike
      rw [hnode, hnode']
      exact halike (fun x hx => hplain.part (by rw [hnode]; exact hx)) depth
  | object table =>
    rw [hnode] at h
    have hb : Building s (s.pushNode (.object [])) := ⟨rfl, Made.start _ rfl⟩
    have hpart : ∀ p ∈ table.entries, p.1 ∈ (Node.object table).parts ∧ p.2 ∈ (Node.object table).parts := fun p hp =>
      ⟨List.mem_flatMap.2 ⟨p, hp, List.mem_cons_self⟩,
        List.mem_flatMap.2 ⟨p, hp, List.mem_cons_of_mem _ List.mem_cons_self⟩⟩
    obtain ⟨s', copies, hs', hb', hnode', halike⟩ := foldlM_props []
      (fun p hp => ⟨h _ (hpart p hp).1, h _ (hpart p hp).2⟩) table.distinct table.prototype hb
      (by rw [Receiver.pushNode, List.getElem?_append_right (Nat.le_refl _), Nat.sub_self]; rfl) (fun _ _ => .nil)
    refine ⟨s', _, ?_, hb'.copyOf fun hplain depth => ?_⟩
    · simp only [pushCloneValueFrom, hnode]
      exact hs'
    · unfold Alike
      rw [hnode, hnode']
      refine halike (fun p hp => ?_) depth
      rw [List.nil_append] at hp
      exact ⟨hplain.part (by rw [hnode]; exact (hpart p hp).1), hplain.part (by rw [hnode]; exact (hpart p hp).2)⟩

theorem clones_leaf {v : Datum α N} (hv : ∀ a, v ≠ .ref a) (fuel : Nat) : Clones other (fuel + 1) v := by
  intro s
  cases v with
  | ref a => exact absurd rfl (hv a)
  | null => exact ⟨_, .null, rfl, copyOf_push s (fun d h => by cases h) (fun _ => trivial) hv⟩
  | bool b => exact ⟨_, .bool b, rfl, copyOf_push s (fun d h => by cases h) (fun _ => rfl) hv⟩
  | number x => exact ⟨_, .number x, rfl, copyOf_push s (fun d h => by cases h) (fun _ => rfl) hv⟩
  | string t => exact ⟨_, .string t, rfl, copyOf_push s (fun d h => by cases h) (fun _ => rfl) hv⟩
  | other => exact ⟨_, .null, rfl, copyOf_push s (fun d h => by cases h) (fun hplain => absurd rfl hplain.1) hv⟩

/-- **Where every path ends, so does the recursion.** -/
theorem clones_of_ends {a : α} (h : Ends (PartOf other) a) : ∃ n, ∀ fuel, n ≤ fuel → Clones other fuel (.ref a) := by
  induction h with
  | intro a _ ih =>
    obtain ⟨n, hn⟩ := eventually_all (P := Clones other) (l := (other a).parts) fun x hx => by
      by_cases href : ∃ b, x = .ref b
      · obtain ⟨b, rfl⟩ := href
        exact ih b hx
      · exact ⟨1, fun m hm => Nat.sub_add_cancel hm ▸ clones_leaf (not_exists.1 href) _⟩
    refine ⟨n + 1, fun fuel hfuel => ?_⟩
    obtain ⟨m, rfl⟩ := Nat.exists_eq_add_of_le' hfuel
    exact clones_ref (hn (m + n) (Nat.le_add_left _ _))

/-! ## Copies that return -/

theorem foldlM_mem {A B : Type} {f : B → A → Option B} : ∀ {l : List A} {b b' : B}, l.foldlM f b = some b' →
    ∀ x ∈ l, ∃ c c', f c x = some c'
  | y :: l, b, b', h, x, hx => by
    rw [List.foldlM_cons] at h
    obtain ⟨c, hc, h⟩ := Option.bind_eq_some_iff.1 h
    rcases List.mem_cons.1 hx with rfl | hx
    · exact ⟨b, c, hc⟩
    · exact foldlM_mem h x hx

/-- **Where the recursion ends, so does every path.** -/
theorem ends_of_some : ∀ {fuel : Nat} {s s' : Receiver N} {a : α}, pushCloneValueFrom other fuel s (.ref a) = some s' →
    Ends (PartOf other) a
  | fuel + 1, s, s', a, h => by
    refine .intro _ fun b hb => ?_
    rw [PartOf] at hb
    simp only [pushCloneValueFrom] at h
    cases hnode : other a with
    | array values =>
      rw [hnode] at h hb
      obtain ⟨t, t', ht⟩ := foldlM_mem h _ hb
      obtain ⟨u, hu, -⟩ := Option.map_eq_some_iff.1 ht
      exact ends_of_some hu
    | object table =>
      rw [hnode] at h hb
      obtain ⟨p, hp, hb⟩ := List.mem_flatMap.1 hb
      obtain ⟨t, t', ht⟩ := foldlM_mem h p hp
      obtain ⟨u, hu, ht⟩ := Option.bind_eq_some_iff.1 ht
      obtain ⟨u', hu', -⟩ := Option.bind_eq_some_iff.1 ht
      rcases List.mem_cons.1 hb with hb | hb
      · rw [← hb] at hu
        exact ends_of_some hu
      · rw [← List.mem_singleton.1 hb] at hu'
        exact ends_of_some hu'

theorem forall₂_forall {A B : Type} {R : Nat → A → B → Prop} : ∀ {l : List A} {l' : List B}, (∀ n, List.Forall₂ (R n) l l') →
    ∀ x ∈ l, ∃ y, ∀ n, R n x y
  | y :: l, l', h, x, hx => by
    cases l' with
    | nil => cases h 0
    | cons z l' =>
      rcases List.mem_cons.1 hx with rfl | hx
      · exact ⟨z, fun n => (List.forall₂_cons.1 (h n)).1⟩
      · exact forall₂_forall (fun n => (List.forall₂_cons.1 (h n)).2) x hx

/-- Every part of a value is like a part of its copy. -/
theorem alike_part {nodes : List (Copy N)} {a : α} {d : Nat} (h : ∀ depth, Alike other nodes depth (.ref a) (.ref d))
    {x : Datum α N} (hx : x ∈ (other a).parts) : ∃ y, ∀ depth, Alike other nodes depth x y := by
  have hparts := fun depth => h (depth + 1)
  unfold Alike at hparts
  cases hnode : other a with
  | array values =>
    rw [hnode] at hx
    cases hcopy : nodes[d]? with
    | none => simp only [hnode, hcopy, forall_const] at hparts
    | some node =>
      simp only [hnode, hcopy] at hparts
      cases node with
      | object table => exact (hparts 0).elim
      | array copies => exact forall₂_forall hparts x hx
  | object table =>
    rw [hnode] at hx
    cases hcopy : nodes[d]? with
    | none => simp only [hnode, hcopy, forall_const] at hparts
    | some node =>
      simp only [hnode, hcopy] at hparts
      cases node with
      | array copies => exact (hparts 0).elim
      | object copies =>
        obtain ⟨p, hp, hx⟩ := List.mem_flatMap.1 hx
        obtain ⟨q, hq⟩ := forall₂_forall hparts p hp
        rcases List.mem_cons.1 hx with rfl | hx
        · exact ⟨q.1, fun depth => (hq depth).1⟩
        · exact ⟨q.2, fun depth => List.mem_singleton.1 hx ▸ (hq depth).2⟩

/-- What has the same contents as its copy holds no functions. -/
theorem plain_of_alike {nodes : List (Copy N)} {v : Datum α N} {w : Datum Nat N} (h : ∀ depth, Alike other nodes depth v w) :
    v.Plain other := by
  have hne : ∀ {x : Datum α N} {y : Datum Nat N}, (∀ depth, Alike other nodes depth x y) → x ≠ .other := by
    rintro x y hxy rfl
    have hone := hxy 1
    cases y <;> exact hone
  refine ⟨hne h, fun a hv b hab => ?_⟩
  have hreach : ∃ d, ∀ depth, Alike other nodes depth (.ref b) (.ref d) := by
    induction hab with
    | refl =>
      subst hv
      obtain ⟨d, rfl⟩ := (h 1).exists_ref
      exact ⟨d, h⟩
    | tail _ hbc ih =>
      obtain ⟨d, hd⟩ := ih
      obtain ⟨y, hy⟩ := alike_part hd hbc
      obtain ⟨e, rfl⟩ := (hy 1).exists_ref
      exact ⟨e, hy⟩
  obtain ⟨d, hd⟩ := hreach
  intro hmem
  obtain ⟨y, hy⟩ := alike_part hd hmem
  exact hne hy rfl

end

/-- **The copy of a value into another instance**: it returns with one more value on the stack, and a value without cycles
has been copied with its contents, exactly when the value reaches no cycle and is built of arrays and objects. -/
theorem pushCloneValueFrom_iff {α N : Type} [DecidableEq α] [Number N] [Finite α] (other : α → Node α N) (v : Datum α N)
    (s : Receiver N) : Copied other v s ↔ v.Acyclic other ∧ v.Plain other := by
  constructor
  · intro ⟨fuel, s', w, hs', hstack, halike⟩
    have hacyclic : v.Acyclic other := by
      rintro a rfl
      exact (ends_of_some hs').acyclic
    exact ⟨hacyclic, plain_of_alike (halike hacyclic)⟩
  · intro ⟨hacyclic, hplain⟩
    obtain ⟨fuel, hfuel⟩ : ∃ fuel, Clones other fuel v := by
      by_cases href : ∃ a, v = .ref a
      · obtain ⟨a, rfl⟩ := href
        obtain ⟨n, hn⟩ := clones_of_ends (hacyclic a rfl).ends
        exact ⟨n, hn n (Nat.le_refl _)⟩
      · exact ⟨1, clones_leaf (not_exists.1 href) 0⟩
    obtain ⟨s', w, hs', hcopy⟩ := hfuel s
    exact ⟨fuel, s', w, hs', hcopy.stack, fun _ => hcopy.alike hplain⟩

/-- One array that is an element of another one twice. -/
def sharedArray : Fin 2 → Node (Fin 2) Int
  | 0 => .array [.ref 1, .ref 1]
  | 1 => .array [.number 5]

/-- A shared array is copied, once for each place it is found at. -/
theorem shared_copied : Copied sharedArray (.ref 0) ⟨[], []⟩ := by
  have hleaf : Ends (PartOf sharedArray) 1 := .intro _ fun b hb => by
    simp [PartOf, sharedArray, Node.parts] at hb
  have hroot : Ends (PartOf sharedArray) 0 := .intro _ fun b hb => by
    obtain rfl : b = 1 := by simpa [PartOf, sharedArray, Node.parts] using hb
    exact hleaf
  refine (pushCloneValueFrom_iff sharedArray (.ref 0) ⟨[], []⟩).2 ⟨fun a ha => ?_, fun h => (by cases h), fun a _ b _ => ?_⟩
  · obtain rfl := Datum.ref.inj ha
    exact hroot.acyclic
  · match b with
    | 0 => simp [sharedArray, Node.parts]
    | 1 => simp [sharedArray, Node.parts]

def selfArray : Unit → Node Unit Int := fun _ => .array [.ref ()]

/-- **An array that holds itself is copied forever.** -/
theorem self_never_copied : ¬ ∀ (α : Type) (_ : DecidableEq α) (_ : Finite α) (other : α → Node α Int) (v : Datum α Int)
    (s : Receiver Int), Copied other v s := by
  intro h
  obtain ⟨fuel, s', w, hs', -⟩ := h Unit inferInstance inferInstance selfArray (.ref ()) ⟨[], []⟩
  exact (ends_of_some hs').not_cycle (.single List.mem_cons_self)

end Objects
end ObjectScript
