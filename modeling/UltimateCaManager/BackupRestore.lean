import UltimateCaManager.BackupSections
import UltimateCaManager.KeyedRows

/-!
# Restoring an archive

An archived row carries its columns as the source held them, and beside each reference the
identity of the row it pointed at. The plan indexes the rows here by identity. The sections are
applied in order, each archived row onto the row here that it is or onto a new one; then every
reference is resolved again against the rows as they now are, and a replacing restore removes the
indexed rows whose identity no archived row has. A failure undoes the whole, so only the restores
that succeed have a result. Of the columns that hold values those are compared that identify a
row; what the restorers do to secrets, key material and defaults is left out, and so are copies of
memberships inside their groups, which the export leaves empty.
-/
namespace UltimateCaManager.Backup

open List

open KeyedRows

/-- The spelling of a value in an identity. -/
inductive Cell
  | text (value : String)
  | number (value : ℕ)
  deriving DecidableEq

abbrev Key := List (Option Cell)

/-- A row of a table: the columns that hold values, and those that hold row numbers. -/
structure Row where
  id : ℕ
  text : String → Option String
  ref : String → Option ℕ

/-- A row of an archive, with the identity beside each reference. -/
structure ArchivedRow extends Row where
  identityOf : String → Option Key

abbrev Database := SectionName → List Row

abbrev Archive := SectionName → List ArchivedRow

/-! ## The plan -/

def isReference (n : SectionName) (c : String) : Bool := ((sections n).references.lookup c).isSome

def cell (n : SectionName) (row : Row) (c : String) : Option Cell :=
  if isReference n c then (row.ref c).map Cell.number else (row.text c).map Cell.text

/-- `_identity_key`. -/
def key (n : SectionName) (row : Row) : Key := (sections n).identity.map (cell n row)

def row? (rows : List Row) (i : ℕ) : Option Row := rows.find? fun row => row.id = i

/-- The number of the row with this identity; of several, `_index_of` keeps the last. -/
def index (plan : Database) (n : SectionName) (k : Key) : Option ℕ :=
  ((plan n).filter fun row => key n row = k).getLast?.map Row.id

/-- `export_section`, for one row. -/
def exportRow (S : Database) (n : SectionName) (row : Row) : ArchivedRow :=
  { row with
    identityOf := fun c => ((sections n).references.lookup c).bind fun t =>
      (row.ref c).bind fun i => (row? (S t) i).map (key t) }

def archiveOf (S : Database) : Archive := fun n => (S n).map (exportRow S n)

/-- The number of a referenced row by its archived identity as it stands. -/
def resolveHere (plan : Database) (n : SectionName) (a : ArchivedRow) (c : String) : Option ℕ :=
  ((sections n).references.lookup c).bind fun t => (a.identityOf c).bind (index plan t)

/-- An identity with other numbers in its references. -/
def keyWith (n : SectionName) (a : ArchivedRow) (number : String → Option ℕ) : Key :=
  (sections n).identity.map fun f =>
    if isReference n f then (number f).map Cell.number else cell n a.toRow f

/-- `_identity_here`. -/
def identityHere (plan : Database) (n : SectionName) (a : ArchivedRow) : Key :=
  keyWith n a (resolveHere plan n a)

/-- `_archived_row`. -/
def archivedRow (A : Archive) (n : SectionName) (k : Key) : Option ArchivedRow :=
  ((A n).filter fun a => key n a.toRow = k).getLast?

/-- `_id_of`: the identity as it stands, or else as the archived row would hold it here. -/
def idOf (plan : Database) (A : Archive) (n : SectionName) (k : Key) : Option ℕ :=
  (index plan n k).or <|
    if (sections n).byReference then
      (archivedRow A n k).bind fun a => index plan n (identityHere plan n a)
    else none

def resolve (plan : Database) (A : Archive) (n : SectionName) (a : ArchivedRow) (c : String) :
    Option ℕ :=
  ((sections n).references.lookup c).bind fun t => (a.identityOf c).bind (idOf plan A t)

def existingId (plan : Database) (n : SectionName) (a : ArchivedRow) : Option ℕ :=
  if (sections n).singleton then (plan n).head?.map Row.id
  else (index plan n (key n a.toRow)).or <|
    if (sections n).byReference then index plan n (identityHere plan n a) else none

def empty (c : Option Cell) : Bool := c = none || c = some (.text "")

/-- `_validate_identity`: a column of the identity that holds no NULL is filled. -/
def valid (A : Archive) : Bool :=
  restoreOrder.all fun n => (A n).all fun a => (sections n).identity.all fun f =>
    !empty (cell n a.toRow f) || f ∈ (sections n).optional

/-! ## Applying a section -/

/-- The identity of an archived row with its references resolved. -/
def resolvedKey (plan : Database) (A : Archive) (n : SectionName) (a : ArchivedRow) : Key :=
  keyWith n a (resolve plan A n a)

/-- The row that an archived row is applied to. -/
def targetRow (plan : Database) (A : Archive) (n : SectionName) (rows : List Row)
    (a : ArchivedRow) : Option Row :=
  match (sections n).restorer with
  | .manifest => (existingId plan n a).bind (row? rows)
  | .queried columns => rows.find? fun row => columns.map row.text = columns.map a.text
  | .identified =>
    if (resolvedKey plan A n a).all empty then none
    else rows.find? fun row => key n row = resolvedKey plan A n a
  | .only => rows.head?

/-- The rows that a restorer passes over: those of an unknown authority, and those that lack what
the restorer asks for. -/
def passedOver (A : Archive) (db : Database) (n : SectionName) (a : ArchivedRow) : Bool :=
  ((sections n).needs.any fun c => empty ((a.text c).map Cell.text)) ||
    (sections n).issuer.any fun c =>
      a.text c ∉ (db .certificateAuthorities).map (·.text "refid") ++
        (A .certificateAuthorities).map (·.text "refid")

/-- The references of an archived row, as they are here. -/
def linkedTo (plan : Database) (A : Archive) (n : SectionName) (a : ArchivedRow) (row : Row) :
    Row :=
  { row with ref := fun c => if isReference n c then resolve plan A n a c else row.ref c }

def newRow (rows : List Row) : Row :=
  ⟨nextNumber (rows.map Row.id), fun _ => none, fun _ => none⟩

/-- `_apply_row`, or the columns that a restorer writes as they stand. -/
def appliedRow (plan : Database) (A : Archive) (n : SectionName) (a : ArchivedRow)
    (rows : List Row) (found : Option Row) : Row :=
  let row : Row := { found.getD (newRow rows) with text := a.text }
  match (sections n).verbatim with
  | none => linkedTo plan A n a row
  | some columns =>
    { row with ref := fun c => if found.isNone || columns.contains c then a.ref c else row.ref c }

/-- A reference that has to be placed and cannot be stops the restore. -/
def isPlaced (n : SectionName) (a : ArchivedRow) (row : Row) : Bool :=
  ((sections n).required.all fun c => (row.ref c).isSome) &&
    (sections n).placed.all fun c => a.ref c = none || (row.ref c).isSome

/-- One turn of the loop of a restorer. -/
def applyOne (plan : Database) (A : Archive) (db : Database) (n : SectionName) (rows : List Row)
    (a : ArchivedRow) : Option (List Row) :=
  if passedOver A db n a then some rows
  else
    let found := targetRow plan A n rows a
    let row := appliedRow plan A n a rows found
    if isPlaced n a row then some (write Row.id rows found row) else none

/-- The plan once the sections that `n` points at are indexed again. The restorers that do not
index again run before all that they point at, or resolve nothing. -/
def refresh (n : SectionName) (plan db : Database) : Database :=
  fun m => if m ∈ (sections n).references.map Prod.snd then db m else plan m

/-- The plan and the database in the course of a restore. -/
structure Progress where
  plan : Database
  db : Database

def applySection (A : Archive) (p : Progress) (n : SectionName) : Option Progress :=
  let plan := refresh n p.plan p.db
  ((A n).foldlM (applyOne plan A p.db n) (p.db n)).map fun rows =>
    ⟨plan, Function.update p.db n rows⟩

def applyAll (A : Archive) (T : Database) : Option Database :=
  (restoreOrder.foldlM (applySection A) ⟨T, T⟩).map Progress.db

/-! ## Linking and replacing -/

/-- `relink_references`, for one archived row; `plan` indexes the rows as they were applied. -/
def relinkRow (plan : Database) (A : Archive) (n : SectionName) (rows : List Row)
    (a : ArchivedRow) : List Row :=
  match (existingId plan n a).bind (row? rows) with
  | none => rows
  | some row => write Row.id rows (some row) (linkedTo plan A n a row)

def relink (A : Archive) (D : Database) : Database :=
  fun n => (A n).foldl (relinkRow D A n) (D n)

/-- `_archived_identities`: as archived, and resolved. -/
def spellings (plan : Database) (A : Archive) (n : SectionName) (a : ArchivedRow) : List Key :=
  key n a.toRow ::
    if (resolvedKey plan A n a).any Option.isSome then [resolvedKey plan A n a] else []

/-- `rows_to_remove`: of the rows that the plan indexes, those the archive does not carry. -/
def doomed (plan : Database) (A : Archive) (n : SectionName) : List ℕ :=
  if (sections n).singleton then []
  else ((plan n).filter fun row => index plan n (key n row) = some row.id &&
    !((A n).any fun a => key n row ∈ spellings plan A n a)).map Row.id

/-- `replace_sections`, over the sections that the archive carries. -/
def prune (carried : SectionName → Bool) (plan : Database) (A : Archive) (db : Database) :
    Database :=
  fun n => if carried n then (db n).filter fun row => row.id ∉ doomed plan A n else db n

/-- A restore, merging or replacing; to replace the accounts by none is refused. -/
def restore (replace : Bool) (carried : SectionName → Bool) (A : Archive) (T : Database) :
    Option Database :=
  if valid A then
    (applyAll A T).bind fun D =>
      if replace then
        if carried .users && (A .users).isEmpty then none
        else some (prune carried D A (relink A D))
      else some (relink A D)
  else none

end UltimateCaManager.Backup
