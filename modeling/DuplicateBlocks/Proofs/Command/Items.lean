import DuplicateBlocks.Command.Arguments
import Mathlib.Data.List.Basic

namespace DuplicateBlocks.Command

variable {o : ValueOption} {s : Switch} {i : Item} {items : List Item} {name value arg path : String}
  {args group : List String} {d : Draft} {waiting : Option ValueOption} {inv : Invocation}

-- The arguments that stand for an item.
inductive Item.Spelled : Item → List String → Prop
  | apart (o : ValueOption) (value : String) : Spelled (.value o value) [o.name, value]
  | inline (o : ValueOption) (value : String) : Spelled (.value o value) [o.name ++ "=" ++ value]
  | switch {s : Switch} {name : String} : name ∈ s.names → Spelled (.switch s) [name]
  | root {path : String} : isDashed path = false → Spelled (.root path) [path]

-- The arguments that stand for a list of items. After two dashes there are only roots.
inductive Spells : List Item → List String → Prop
  | nil : Spells [] []
  | cons {i : Item} {items : List Item} {group args : List String} :
    i.Spelled group → Spells items args → Spells (i :: items) (group ++ args)
  | rest (roots : List String) : Spells (roots.map .root) ("--" :: roots)

theorem ValueOption.ofName?_name (o : ValueOption) : ofName? o.name = some o := by
  cases o <;> decide +kernel

theorem ValueOption.eq_name_of_ofName? (h : ofName? name = some o) : name = o.name := by
  have hb := List.find?_some h
  exact (eq_of_beq hb).symm

theorem Switch.mem_names_of_ofName? (h : ofName? name = some s) : name ∈ s.names := by
  have hb := List.find?_some h
  simpa using hb

theorem isDashed_name (o : ValueOption) : isDashed o.name = true := by
  cases o <;> decide +kernel

theorem isDashed_of_mem_names (h : name ∈ s.names) : isDashed name = true := by
  have hs : ∀ name ∈ s.names, isDashed name = true := by cases s <;> decide +kernel
  exact hs name h

theorem ValueOption.ofName?_of_not_isDashed (h : isDashed path = false) : ofName? path = none := by
  cases ho : ofName? path
  case none   => rfl
  case some o => simp [eq_name_of_ofName? ho, isDashed_name] at h

theorem Switch.ofName?_of_not_isDashed (h : isDashed path = false) : ofName? path = none := by
  cases hs : ofName? path
  case none   => rfl
  case some s => simp [isDashed_of_mem_names (mem_names_of_ofName? hs)] at h

theorem dropWhile_ne_eq_cons {c : Char} {cs : List Char} (h : c ∈ cs) : ∃ rest, cs.dropWhile (· != c) = c :: rest := by
  induction cs
  case nil => simp at h
  case cons x xs hi =>
    by_cases hx : x = c
    case pos => exact ⟨xs, by simp [hx]⟩
    case neg =>
      have ⟨rest, hr⟩ := hi (by simpa [Ne.symm hx] using h)
      exact ⟨rest, by simp [hx, hr]⟩

theorem splitInline_append (hd : ['-', '-'] <+: name.toList) (he : '=' ∉ name.toList) (value : String) :
    splitInline (name ++ "=" ++ value) = (name, some value) := by
  have hcs : (name ++ "=" ++ value).toList = name.toList ++ '=' :: value.toList := by simp
  have hne : ∀ c ∈ name.toList, (c != '=') = true := by
    intro c hc
    simpa using ne_of_mem_of_not_mem hc he
  have hp : ['-', '-'].isPrefixOf (name.toList ++ '=' :: value.toList) = true :=
    List.isPrefixOf_iff_prefix.mpr (hd.trans (List.prefix_append ..))
  simp [splitInline, hcs, hp, List.takeWhile_append_of_pos hne, List.dropWhile_append_of_pos hne]

theorem eq_append_of_splitInline (h : splitInline arg = (name, some value)) : arg = name ++ "=" ++ value := by
  unfold splitInline at h
  simp only at h
  split at h
  case isFalse   => cases h
  case isTrue hc =>
    simp only [Bool.and_eq_true, List.contains_iff_mem] at hc
    have ⟨rest, hr⟩ := dropWhile_ne_eq_cons hc.right
    have hj := List.takeWhile_append_dropWhile (p := (· != '=')) (l := arg.toList)
    simp only [hr, List.drop_one, List.tail_cons, Prod.mk.injEq, Option.some.injEq] at h hj
    have ⟨hn, hv⟩ := h
    rw [String.ext_iff, ← hj, ← hn, ← hv]
    simp

theorem eq_of_splitInline_none (h : splitInline arg = (name, none)) : arg = name := by
  unfold splitInline at h
  simp only at h
  split at h <;> cases h
  rfl

theorem splitInline_of_not_isDashed (h : isDashed path = false) : splitInline path = (path, none) := by
  have hp : ['-', '-'].isPrefixOf path.toList = false := by
    unfold isDashed at h
    split at h
    case h_1 => cases h
    case h_2 hn =>
      rw [← Bool.not_eq_true, List.isPrefixOf_iff_prefix]
      intro ⟨rest, hr⟩
      exact hn '-' rest hr.symm
  simp [splitInline, hp]

namespace Argument

theorem ofText_inline (o : ValueOption) (value : String) :
    ofText (o.name ++ "=" ++ value) = .item (.value o value) := by
  have hs : splitInline (o.name ++ "=" ++ value) = (o.name, some value) :=
    splitInline_append (by cases o <;> decide +kernel) (by cases o <;> decide +kernel) value
  have hd : (o.name ++ "=" ++ value == "--") = false := by
    refine beq_false_of_ne fun he => ?_
    have hn : splitInline "--" = ("--", none) := by decide +kernel
    simp [he, hn] at hs
  have hh : (o.name == "-h" || o.name == "--help") = false := by cases o <;> decide +kernel
  have hv : (o.name == "-V" || o.name == "--version") = false := by cases o <;> decide +kernel
  simp [ofText, hd, hs, hh, hv, ValueOption.ofName?_name]

theorem ofText_name (o : ValueOption) : ofText o.name = .opening o := by
  cases o <;> decide +kernel

theorem ofText_of_mem_names (h : name ∈ s.names) : ofText name = .item (.switch s) := by
  have hs : ∀ name ∈ s.names, ofText name = .item (.switch s) := by cases s <;> decide +kernel
  exact hs name h

theorem ofText_of_not_isDashed (h : isDashed path = false) : ofText path = .item (.root path) := by
  have hne : ∀ name, isDashed name = true → (path == name) = false := by
    intro name hn
    refine beq_false_of_ne fun he => ?_
    rw [he, hn] at h
    cases h
  simp [ofText, splitInline_of_not_isDashed h, ValueOption.ofName?_of_not_isDashed h, Switch.ofName?_of_not_isDashed h,
    hne "--" (by decide +kernel), hne "-h" (by decide +kernel), hne "--help" (by decide +kernel),
    hne "-V" (by decide +kernel), hne "--version" (by decide +kernel), h]

-- How the text of an argument looks that adds to the items.
def Suits (arg : String) : Argument → Prop
  | .item i    => i.Spelled [arg]
  | .opening o => arg = o.name
  | .dashes    => arg = "--"
  | _          => True

theorem suits_of_ofText {a : Argument} (h : ofText arg = a) : a.Suits arg := by
  rw [← h]
  cases hs : splitInline arg
  case mk name inline =>
    unfold ofText
    simp only [hs]
    split
    case isTrue hd => exact eq_of_beq hd
    case isFalse   =>
      repeat' split
      all_goals try trivial
      -- What is left is a value inside its argument, a name before its value, a switch and a root.
      case h_1 o value hn =>
        rw [eq_append_of_splitInline hs, ValueOption.eq_name_of_ofName? hn]
        exact .inline o value
      case h_2 o hn =>
        exact (eq_of_splitInline_none hs).trans (ValueOption.eq_name_of_ofName? hn)
      case h_1 s hn =>
        rw [eq_of_splitInline_none hs]
        exact .switch (Switch.mem_names_of_ofName? hn)
      case isFalse hn =>
        rw [eq_of_splitInline_none hs]
        exact .root (Bool.eq_false_iff.mpr hn)

end Argument

theorem exists_of_bind_eq_ok {ε α β : Type} {x : Except ε α} {f : α → Except ε β} {b : β} (h : x >>= f = .ok b) :
    ∃ a, x = .ok a ∧ f a = .ok b := by
  cases x
  case error e => cases h
  case ok a    => exact ⟨a, rfl, h⟩

theorem Draft.addRoots_nil (d : Draft) : d.addRoots [] = d := by
  simp [addRoots]

theorem Draft.addRoots_addRoots (d : Draft) (roots more : List String) :
    (d.addRoots roots).addRoots more = d.addRoots (roots ++ more) := by
  simp [addRoots]

theorem foldlM_take_root (d : Draft) (roots : List String) :
    (roots.map Item.root).foldlM Draft.take d = .ok (d.addRoots roots) := by
  induction roots generalizing d
  case nil => rw [Draft.addRoots_nil]; rfl
  case cons root roots hi =>
    rw [List.map_cons, List.foldlM_cons]
    have hc : d.take (.root root) >>= (roots.map Item.root).foldlM Draft.take
        = (roots.map Item.root).foldlM Draft.take (d.addRoots [root]) := rfl
    rw [hc, hi, Draft.addRoots_addRoots, List.singleton_append]

theorem readArguments_of_spelled (h : i.Spelled group) (d : Draft) (args : List String) :
    readArguments d none (group ++ args) = d.take i >>= fun d => readArguments d none args := by
  cases h
  case apart o value  => simp [readArguments, Argument.ofText_name]
  case inline o value => simp [readArguments, Argument.ofText_inline]
  case switch s n h   => simp [readArguments, Argument.ofText_of_mem_names h]
  case root path h    => simp [readArguments, Argument.ofText_of_not_isDashed h]

theorem readArguments_of_spells (h : Spells items args) (d : Draft) :
    readArguments d none args = items.foldlM Draft.take d >>= Draft.finish := by
  induction h generalizing d
  case nil => rfl
  case cons i items group args hs _ hi =>
    rw [readArguments_of_spelled hs, List.foldlM_cons, bind_assoc]
    simp only [hi]
  case rest roots =>
    have hd : Argument.ofText "--" = .dashes := by decide +kernel
    simp only [readArguments, hd, foldlM_take_root]
    rfl

theorem exists_spells_of_waiting (h : readArguments d waiting args = .ok (.run inv)) :
    ∃ items, Spells items ((waiting.map ValueOption.name).toList ++ args) := by
  fun_induction readArguments d waiting args
  case case1 => exact ⟨[], .nil⟩
  case case3 o arg rest hi =>
    have ⟨d, _, hr⟩ := exists_of_bind_eq_ok h
    have ⟨items, hs⟩ := hi d hr
    have hc : Spells (.value o arg :: items) ([o.name, arg] ++ rest) := .cons (.apart o arg) hs
    exact ⟨_, hc⟩
  case case4 arg rest i ha hi =>
    have ⟨d, _, hr⟩ := exists_of_bind_eq_ok h
    have ⟨items, hs⟩ := hi d hr
    have hc : Spells (i :: items) ([arg] ++ rest) := .cons (Argument.suits_of_ofText ha) hs
    exact ⟨_, hc⟩
  case case5 arg rest o ha hi =>
    have ho : arg = o.name := Argument.suits_of_ofText ha
    exact ho ▸ hi h
  case case6 arg rest ha =>
    have hd : arg = "--" := Argument.suits_of_ofText ha
    exact ⟨rest.map .root, hd ▸ .rest rest⟩
  all_goals cases h

theorem exists_spells (h : Request.ofArguments args = .ok (.run inv)) : ∃ items, Spells items args :=
  exists_spells_of_waiting h

end DuplicateBlocks.Command
