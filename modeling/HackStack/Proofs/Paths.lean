import HackStack.Files.Search
import HackStack.Proofs.Rendering
import Mathlib.Data.String.Basic

set_option autoImplicit false

namespace HackStack.Files

open Text

namespace Path

variable {p : Path} {name : List Char}

def names (p : Path) : List (List Char) := (splitAt '/' p.text.toList).filter fun piece => !piece.isEmpty

/-- The components of a path less a component `.` at the start. -/
def bare (p : Path) : List Component := p.components.filter (· ≠ .here)

theorem toList_ne_nil (h : p.text ≠ "") : p.text.toList ≠ [] := fun hnil =>
  h (String.toList_eq_nil_iff.1 hnil)

theorem eq_here (h : p.text = ".") : p = ⟨"."⟩ := congrArg Path.mk h

section Joining

def stretch (p : Path) : List Char :=
  if p.text.toList.getLast? = some '/' then p.text.toList.dropLast else p.text.toList

def way (p : Path) : List (List Char) := splitAt '/' p.stretch

theorem way_ne_nil (p : Path) : p.way ≠ [] := List.cons_ne_nil _ _

theorem text_stretch (p : Path) : p.text.toList = p.stretch ∨ p.text.toList = p.stretch ++ ['/'] := by
  unfold stretch
  split
  next hlast =>
    obtain ⟨text, htext⟩ := List.getLast?_eq_some_iff.1 hlast
    rw [htext, List.dropLast_concat]
    exact .inr rfl
  next => exact .inl rfl

theorem splitAt_way (p : Path) :
    splitAt '/' p.text.toList = p.way ∨ splitAt '/' p.text.toList = p.way ++ [[]] := by
  refine (text_stretch p).imp (fun htext => by rw [htext, way]) fun htext => ?_
  rw [htext, splitAt_append, way]
  rfl

theorem names_way (p : Path) : p.names = p.way.filter fun piece => !piece.isEmpty := by
  rw [names]
  obtain hcut | hcut := splitAt_way p
  · rw [hcut]
  · rw [hcut, List.filter_append]
    exact List.append_nil _

theorem join_text (h : p.text ≠ "") (name : String) :
    (p.join name).text.toList = p.stretch ++ '/' :: name.toList := by
  unfold join stretch
  split
  next hlast => exact absurd (List.getLast?_eq_none_iff.1 hlast) (toList_ne_nil h)
  next hlast =>
    obtain ⟨text, htext⟩ := List.getLast?_eq_some_iff.1 hlast
    simp [htext]
  next c hc hlast =>
    have hslash : ("/" : String).toList = ['/'] := by decide
    rw [if_neg (by simpa [hlast] using hc)]
    simp only [String.toList_append, hslash, List.append_assoc, List.singleton_append]

theorem isAbsolute_join (h : p.text ≠ "") (name : String) :
    (p.join name).isAbsolute = p.isAbsolute := by
  have hne := toList_ne_nil h
  rw [isAbsolute, isAbsolute, join_text h]
  obtain htext | htext := text_stretch p
  · obtain ⟨c, text, hcons⟩ := List.exists_cons_of_ne_nil hne
    rw [← htext, hcons]
    rfl
  · rw [htext]
    cases p.stretch <;> rfl

/-- The pieces of a path with a name behind it are those of the path, less an empty one at the end, and
the name. -/
theorem splitAt_join (h : p.text ≠ "") (hname : '/' ∉ name) :
    splitAt '/' (p.join (String.ofList name)).text.toList = p.way ++ [name] := by
  rw [join_text h, String.toList_ofList, splitAt_append, splitAt_of_not_mem hname, way]

theorem names_join (h : p.text ≠ "") (hname : '/' ∉ name) :
    (p.join (String.ofList name)).names = p.names ++ if name = [] then [] else [name] := by
  rw [names_way p, names, splitAt_join h hname, List.filter_append]
  cases name <;> rfl

theorem components_join (h : p.text ≠ "") (hname : '/' ∉ name) :
    (p.join (String.ofList name)).components = p.components ++ (component name 1).toList := by
  obtain ⟨count, hcount⟩ := Nat.exists_eq_succ_of_ne_zero (mt List.length_eq_zero_iff.1 p.way_ne_nil)
  have hp : (splitAt '/' p.text.toList).zipIdx.filterMap (fun piece => component piece.1 piece.2) =
      p.way.zipIdx.filterMap fun piece => component piece.1 piece.2 := by
    obtain hcut | hcut := splitAt_way p
    · rw [hcut]
    · rw [hcut, List.zipIdx_append, List.filterMap_append]
      exact List.append_nil _
  rw [components, components, isAbsolute_join h, splitAt_join h hname, hp, List.zipIdx_append,
    List.filterMap_append, hcount, ← List.append_assoc]
  congr 1

/-- Only the first piece of a path can be a component `.`. -/
theorem component_filter (piece : List Char) (index : Nat) :
    (component piece index).filter (· ≠ .here) = component piece 1 := by
  unfold component
  split
  · rfl
  · split
    · cases index <;> rfl
    · split <;> rfl

theorem bare_way (p : Path) : p.bare =
    (if p.isAbsolute then [.root] else []) ++ p.way.filterMap fun piece => component piece 1 := by
  have hway : (p.way.filterMap fun piece => component piece 1) =
      (splitAt '/' p.text.toList).filterMap fun piece => component piece 1 := by
    obtain hcut | hcut := splitAt_way p
    · rw [hcut]
    · rw [hcut, List.filterMap_append]
      exact (List.append_nil _).symm
  rw [hway, bare, components, List.filter_append, List.filter_filterMap]
  simp only [component_filter]
  nth_rewrite 2 [← List.zipIdx_map_fst 0 (splitAt '/' p.text.toList)]
  rw [List.filterMap_map]
  congr 1
  cases p.isAbsolute <;> rfl

theorem bare_join (h : p.text ≠ "") (hname : '/' ∉ name) :
    (p.join (String.ofList name)).bare = p.bare ++ (component name 1).toList := by
  rw [bare, bare, components_join h hname, List.filter_append, ← Option.toList_filter, component_filter]

end Joining

section Names

variable (hne : name ≠ []) (hname : '/' ∉ name)
include hne hname

theorem isAbsolute_name : isAbsolute ⟨String.ofList name⟩ = false := by
  cases name with
  | nil => exact absurd rfl hne
  | cons c name =>
    have hc : c ≠ '/' := fun heq => hname (heq ▸ List.mem_cons_self)
    simp [isAbsolute, hc]

theorem names_name : names ⟨String.ofList name⟩ = [name] := by
  simp [names, splitAt_of_not_mem hname, hne]

theorem components_name : components ⟨String.ofList name⟩ = (component name 0).toList := by
  rw [components, isAbsolute_name hne hname, String.toList_ofList, splitAt_of_not_mem hname,
    List.zipIdx_singleton, List.filterMap_cons]
  cases component name 0 <;> rfl

theorem bare_name : bare ⟨String.ofList name⟩ = (component name 1).toList := by
  rw [bare, components_name hne hname]
  unfold component
  split_ifs <;> simp_all

end Names

/-- A path that a search has come to: the current directory, or a path that says where it leads. -/
def Reached (p : Path) : Prop := p.text = "." ∨ p.text ≠ "" ∧ p.bare ≠ []

namespace Reached

theorem ne_empty (h : p.Reached) : p.text ≠ "" := by
  obtain hdot | ⟨hne, -⟩ := h
  · rw [hdot]
    decide
  · exact hne

theorem isHere_iff (h : p.Reached) : isHere p ↔ p.text = "." := by
  rw [isHere, decide_eq_true_eq]
  constructor
  · intro hhere
    refine h.resolve_right fun hbare => hbare.2 ?_
    rw [bare, hhere]
    rfl
  · intro hdot
    rw [components, isAbsolute, hdot]
    rfl

theorem entryPath_join (h : p.Reached) (hdot : p.text ≠ ".") (name : String) :
    entryPath p name = p.join name := if_neg (mt h.isHere_iff.1 hdot)

end Reached

theorem entryPath_here (name : String) : entryPath ⟨"."⟩ name = ⟨name⟩ :=
  if_pos ((Reached.isHere_iff (.inl rfl)).2 rfl)

theorem bare_here : bare ⟨"."⟩ = [] := rfl

/-- The path of an entry is that of the directory and the entry. -/
theorem Reached.bare_entryPath (h : p.Reached) (hslash : '/' ∉ name) (hname : p.text = "." → name ≠ []) :
    (entryPath p (String.ofList name)).bare = p.bare ++ (component name 1).toList := by
  by_cases hdot : p.text = "."
  · obtain rfl : p = ⟨"."⟩ := eq_here hdot
    rw [entryPath_here, bare_name (hname rfl) hslash, bare_here, List.nil_append]
  · rw [h.entryPath_join hdot, bare_join h.ne_empty hslash]

section Order

theorem order_self (c : Component) : c.order c = .eq := by
  simp [Component.order]

theorem orderComponents_append (common : List Component) (as bs : List Component) :
    orderComponents (common ++ as) (common ++ bs) = orderComponents as bs := by
  induction common with
  | nil => rfl
  | cons c common ih =>
    rw [List.cons_append, List.cons_append, orderComponents, order_self, ih]
    rfl

theorem isLE_orderComponents_name {a b : String} (h : a ≤ b) :
    (orderComponents [.name a] [.name b]).isLE := by
  have hcompare : (compare a b).isLE := Std.LawfulBCmp.isLE_iff_le.2 h
  simpa [orderComponents, Component.order, Component.rank, Component.label] using hcompare

end Order

end Path

end HackStack.Files
