import NinjaGen.Data.Value

/-!
# Tables in TOML

A document describes a tree of tables piece by piece: by headers, by keys with dots and by inline
tables. Each table remembers how it came about, because that decides how it may be continued.

* `Table` is a table under construction, with its `Origin`.
* `Table.put` adds a value under a key with dots, `Table.declare` a table under a header, and
  `Table.append` a further member of a list of tables. Each refuses what is there already.
* `Table.toValue` is the record that a finished table stands for.
-/

namespace NinjaGen.Toml

/-- Why a text is no document. -/
inductive Error
  /-- The text cannot go on as it does. -/
  | unexpected (expected : String)
  /-- A key is there already. -/
  | duplicate (key : String)
  /-- Lists, tables or keys are nested too deeply. -/
  | nesting
  deriving DecidableEq, Repr

/-- The wording of an error. -/
def Error.message : Error → String
  | .unexpected expected => "expected " ++ expected
  | .duplicate key => "duplicate key `" ++ key ++ "`"
  | .nesting => "nested too deeply"

/-- How a table came about. -/
inductive Origin
  /-- A header or an inline table declared it. -/
  | declared
  /-- The header of a table within it opened it. -/
  | opened
  /-- A key with dots leads through it. -/
  | dotted
  deriving DecidableEq, Repr

mutual

/-- What a key stands for. -/
inductive Item
  | value (v : Value)
  | table (t : Table)
  /-- A list of tables, declared member by member. -/
  | tables (ts : List Table)

/-- A table under construction. -/
inductive Table
  | mk (origin : Origin) (items : List (String × Item))

end

instance : Inhabited Table := ⟨.mk .declared []⟩

namespace Table

/-- How the table came about. -/
def origin : Table → Origin
  | mk o _ => o

/-- What the keys of the table stand for. -/
def items : Table → List (String × Item)
  | mk _ is => is

/-- A table without keys. -/
def new (o : Origin) : Table := mk o []

/-- The table as declared by a header. -/
def asDeclared (t : Table) : Table := mk .declared t.items

/-- What a key stands for. -/
def find? (t : Table) (key : String) : Option Item := (t.items.find? (·.1 = key)).map (·.2)

/-- The table with a further key. -/
def add (t : Table) (key : String) (i : Item) : Table := mk t.origin (t.items ++ [(key, i)])

/-- The table with a key standing for something else. -/
def replace (t : Table) (key : String) (i : Item) : Table :=
  mk t.origin (t.items.map fun p => if p.1 = key then (key, i) else p)

/-- The table with the table that a path leads to changed by `f`. Tables on the way that are not
there are added with the origin `via`. A list of tables is continued at its last member. A key with
dots does not lead through a table that was declared. -/
def update (via : Origin) (f : Table → Except Error Table) :
    List String → Table → Except Error Table
  | [], t => f t
  | key :: path, t =>
    match t.find? key with
    | none => do
      let sub ← update via f path (new via)
      pure (t.add key (.table sub))
    | some (.value _) => .error (.duplicate key)
    | some (.table sub) =>
      if via = .dotted ∧ sub.origin = .declared then .error (.duplicate key)
      else do
        let sub ← update via f path sub
        pure (t.replace key (.table sub))
    | some (.tables ts) =>
      match ts.getLast? with
      | none => .error (.duplicate key)
      | some last => do
        let last ← update via f path last
        pure (t.replace key (.tables (ts.dropLast ++ [last])))

/-- The table with a value under a key that the tables of a path lead to. A key without dots does
not go into a table that keys with dots lead through, and one with dots goes into no other. -/
def put (path : List String) (key : String) (v : Value) (t : Table) : Except Error Table :=
  update .dotted
    (fun t =>
      if (t.origin = .dotted ↔ path = []) ∨ (t.find? key).isSome then .error (.duplicate key)
      else .ok (t.add key (.value v)))
    path t

/-- The table with all those values. -/
def putAll : List (List String × String × Value) → Table → Except Error Table
  | [], t => .ok t
  | (path, key, v) :: r, t => do
    let t ← put path key v t
    putAll r t

/-- The table with the content of a header. A header may declare what an earlier one opened. -/
def declare (path : List String) (key : String) (content : List (List String × String × Value))
    (t : Table) : Except Error Table :=
  update .opened
    (fun t =>
      match t.find? key with
      | none => do
        let sub ← putAll content (new .declared)
        pure (t.add key (.table sub))
      | some (.table sub) =>
        if sub.origin = .opened then do
          let sub ← putAll content sub.asDeclared
          pure (t.replace key (.table sub))
        else .error (.duplicate key)
      | some _ => .error (.duplicate key))
    path t

/-- The table with the content of a header for a further member of a list of tables. -/
def append (path : List String) (key : String) (content : List (List String × String × Value))
    (t : Table) : Except Error Table :=
  update .opened
    (fun t => do
      let member ← putAll content (new .declared)
      match t.find? key with
      | none => pure (t.add key (.tables [member]))
      | some (.tables ts) => pure (t.replace key (.tables (ts ++ [member])))
      | some _ => .error (.duplicate key))
    path t

end Table

/-! ## Finished tables -/

mutual

/-- The value that an item stands for. -/
def Item.toValue : Item → Value
  | .value v => v
  | .table t => t.toValue
  | .tables ts => .list (tableValues ts)

/-- The record that a table stands for. -/
def Table.toValue : Table → Value
  | .mk _ items => .record (fieldValues items)

/-- The records that tables stand for. -/
def tableValues : List Table → List Value
  | [] => []
  | t :: r => t.toValue :: tableValues r

/-- The fields that items stand for. -/
def fieldValues : List (String × Item) → List (String × Value)
  | [] => []
  | (key, i) :: r => (key, i.toValue) :: fieldValues r

end

end NinjaGen.Toml
