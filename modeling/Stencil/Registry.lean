import Stencil.Function
import Stencil.Text.Order
/-!
# Registries

A registry holds functions, no two of the same name. Registering a function replaces the one of the
same name. A function is looked up by its name in either case, with or without the `$`.
-/

namespace Stencil

structure Registry where
  functions : List Function
  distinct : (functions.map (·.name.key)).Nodup

namespace Registry

def empty : Registry := ⟨[], List.nodup_nil⟩

def find? (r : Registry) (name : FunctionName) : Option Function :=
  r.functions.find? (·.name.key == name.key)

/-- The function of a name, given as text. -/
def get? (r : Registry) (name : Text) : Option Function := r.find? (.ofText name)

/-- The functions with names other than the given one. -/
def others (r : Registry) (name : FunctionName) : List Function :=
  r.functions.filter (·.name.key != name.key)

/-- Adding a function leaves one of each name. -/
theorem nodup_others (r : Registry) (f : Function) :
    ((r.others f.name ++ [f]).map (·.name.key)).Nodup := by
  rw [List.map_append, List.nodup_append]
  have hrest : ((r.others f.name).map (·.name.key)).Nodup :=
    r.distinct.sublist (List.filter_sublist.map _)
  refine ⟨hrest, by simp, ?_⟩
  intro a ha b hb hab
  obtain ⟨g, hg, rfl⟩ := List.mem_map.1 ha
  have hne := (List.mem_filter.1 hg).2
  obtain rfl : b = f.name.key := by simpa using hb
  simp [hab] at hne

def add (r : Registry) (f : Function) : Registry := ⟨r.others f.name ++ [f], r.nodup_others f⟩

/-- The function that a new one replaces, and the registry with the new one. -/
def register (r : Registry) (f : Function) : Option Function × Registry := (r.find? f.name, r.add f)

/-- The registry with further functions, in this order. -/
def addAll (r : Registry) (fs : List Function) : Registry := fs.foldl add r

/-- The names of the functions as they are written in documents. -/
def names (r : Registry) : List Text := r.functions.map (·.name.text)

/-- The names in the order of their code points. -/
def sortedNames (r : Registry) : List Text :=
  r.names.mergeSort fun a b => Text.order a b != .gt

def size (r : Registry) : Nat := r.functions.length

end Registry

end Stencil
