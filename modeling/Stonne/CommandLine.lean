import Stonne.TileGenerator.StonneMapper
import Stonne.Lib.Assign

/-!
# The arguments of a dense GEMM

`configDenseGEMMParameters` reads the arguments of the command line from left to right.  Each
has the form `name=value`; a valid one assigns its value to one parameter.  The argument
`-ms_cols` also computes `ms_size`, from the rows that are configured at that time.

The part of `Config` that no argument can change is left out.
-/

namespace Stonne

open Dataflow

inductive ReduceNetwork where
  | asnetwork
  | fenetwork
  | temporalrn
  deriving DecidableEq, Repr

inductive MemoryControllerType where
  | maeriDenseWorkload
  | sigmaSparseGemm
  | magmaSparseDense
  | tpuOsDense
  deriving DecidableEq, Repr

/-- `TileGenerator::Target` -/
inductive TileGeneratorTarget where
  | none
  | performance
  | energy
  | energyEfficiency
  deriving DecidableEq, Repr

/-- `TileGenerator::Generator` -/
inductive TileGeneratorKind where
  | chooseAutomatically
  | mrna
  | stonneMapper
  deriving DecidableEq, Repr

namespace CommandLine

/-- What the arguments can change, with the values of `Config::reset` and of
`runDenseGEMMCommand`. -/
structure Parameters where
  printStatsEnabled : Nat := 1
  multiplierNetworkType : MultiplierNetworkType := .linear
  msSize : Nat := 64
  msRows : Nat := 0
  msCols : Nat := 0
  reduceNetworkType : ReduceNetwork := .asnetwork
  accumulationBufferEnabled : Nat := 0
  memControllerType : MemoryControllerType := .maeriDenseWorkload
  nReadPorts : Nat := 4
  nWritePorts : Nat := 4
  layerName : String := "TestLayer"
  M : Nat := 1
  K : Nat := 3
  N : Nat := 1
  tM : Nat := 1
  tK : Nat := 1
  tN : Nat := 1
  tileGeneratorTarget : TileGeneratorTarget := .none
  tileGenerator : TileGeneratorKind := .chooseAutomatically
  deriving DecidableEq, Repr

/-- The ways in which the program stops at an argument. -/
inductive ConfigError where
  /-- A message and `exit(1)`. -/
  | exit (message : String)
  /-- The exceptions of `stoi`. -/
  | invalidArgument
  | outOfRange
  /-- A message and `assert(false)`. -/
  | assertion (message : String)
  deriving DecidableEq, Repr

/-! ## Values -/

def isSpace (c : Char) : Bool :=
  [' ', '\t', '\n', '\x0b', '\x0c', '\r'].contains c

/-- `stoi`: white space, a sign and all digits behind it; the rest is ignored. -/
def stoi (text : String) : Except ConfigError Int :=
  let chars := text.toList.dropWhile isSpace
  let signed := match chars with
    | '-' :: rest => (true, rest)
    | '+' :: rest => (false, rest)
    | _ => (false, chars)
  let digits := signed.2.takeWhile Char.isDigit
  let magnitude : Int := digits.foldl (fun n c => 10 * n + (c.toNat - '0'.toNat)) 0
  let value := if signed.1 then -magnitude else magnitude
  if digits.isEmpty then .error .invalidArgument
  else if -2 ^ 31 ≤ value ∧ value < 2 ^ 31 then .ok value
  else .error .outOfRange

def ispowerof2 (x : Nat) : Bool :=
  x != 0 && x &&& (x - 1) == 0

def toLower (text : String) : String :=
  String.ofList (text.toList.map Char.toLower)

def parseTileGeneratorTarget (target : String) : TileGeneratorTarget :=
  let target := toLower target
  if target = "none" ∨ target = "0" then .none
  else if target = "performance" ∨ target = "1" then .performance
  else if target = "energy" ∨ target = "2" then .energy
  else if target = "energy_efficiency" ∨ target = "3" then .energyEfficiency
  else .none

def parseTileGenerator (generator : String) : TileGeneratorKind :=
  let generator := toLower generator
  if generator = "auto" ∨ generator = "0" then .chooseAutomatically
  else if generator = "mrna" ∨ generator = "1" then .mrna
  else if generator = "stonnemapper" ∨ generator = "2" then .stonneMapper
  else .chooseAutomatically

def getTypeReduceNetworkType (text : String) : Except ConfigError ReduceNetwork :=
  if text = "ASNETWORK" then .ok .asnetwork
  else if text = "FENETWORK" then .ok .fenetwork
  else if text = "TEMPORALRN" then .ok .temporalrn
  else .error (.assertion (text ++ " Not found"))

def getTypeMultiplierNetworkType (text : String) : Except ConfigError MultiplierNetworkType :=
  if text = "LINEAR" then .ok .linear
  else if text = "OS_MESH" then .ok .osMesh
  else .error (.assertion (text ++ " Not found"))

def getTypeMemoryControllerType (text : String) : Except ConfigError MemoryControllerType :=
  if text = "MAERI_DENSE_WORKLOAD" then .ok .maeriDenseWorkload
  else if text = "SIGMA_SPARSE_GEMM" then .ok .sigmaSparseGemm
  else if text = "TPU_OS_DENSE" then .ok .tpuOsDense
  else if text = "MAGMA_SPARSE_DENSE" then .ok .magmaSparseDense
  else .error (.assertion (text ++ " Not found"))

/-! ## Arguments -/

/-- A recognised parameter and its value. -/
inductive Argument where
  | numMs (value : Nat)
  | msRows (value : Nat)
  | msCols (value : Nat)
  | dnBw (value : Nat)
  | rnBw (value : Nat)
  | accumulationBuffer (value : Nat)
  | printStats (value : Nat)
  | rnType (value : ReduceNetwork)
  | mnType (value : MultiplierNetworkType)
  | memCtrl (value : MemoryControllerType)
  | layerName (value : String)
  | M (value : Nat)
  | N (value : Nat)
  | K (value : Nat)
  | tM (value : Nat)
  | tN (value : Nat)
  | tK (value : Nat)
  | generateTile (value : TileGeneratorTarget)
  | generator (value : TileGeneratorKind)
  deriving DecidableEq, Repr

def Argument.name : Argument → String
  | .numMs _ => "-num_ms"
  | .msRows _ => "-ms_rows"
  | .msCols _ => "-ms_cols"
  | .dnBw _ => "-dn_bw"
  | .rnBw _ => "-rn_bw"
  | .accumulationBuffer _ => "-accumulation_buffer"
  | .printStats _ => "-print_stats"
  | .rnType _ => "-rn_type"
  | .mnType _ => "-mn_type"
  | .memCtrl _ => "-mem_ctrl"
  | .layerName _ => "-layer_name"
  | .M _ => "-M"
  | .N _ => "-N"
  | .K _ => "-K"
  | .tM _ => "-T_M"
  | .tN _ => "-T_N"
  | .tK _ => "-T_K"
  | .generateTile _ => "-generate_tile"
  | .generator _ => "-generator"

/-- What an argument changes. -/
def assign (params : Parameters) : Argument → Parameters
  | .numMs value => { params with msSize := value }
  | .msRows value => { params with msRows := value }
  | .msCols value =>
      { params with
        msCols := value
        msSize := uint (params.msRows * value) }
  | .dnBw value => { params with nReadPorts := value }
  | .rnBw value => { params with nWritePorts := value }
  | .accumulationBuffer value => { params with accumulationBufferEnabled := value }
  | .printStats value => { params with printStatsEnabled := value }
  | .rnType value => { params with reduceNetworkType := value }
  | .mnType value => { params with multiplierNetworkType := value }
  | .memCtrl value => { params with memControllerType := value }
  | .layerName value => { params with layerName := value }
  | .M value => { params with M := value }
  | .N value => { params with N := value }
  | .K value => { params with K := value }
  | .tM value => { params with tM := value }
  | .tN value => { params with tN := value }
  | .tK value => { params with tK := value }
  | .generateTile value => { params with tileGeneratorTarget := value }
  | .generator value => { params with tileGenerator := value }

/-- The name and the value of an argument, split at the first `=`. -/
def splitArgument (arg : String) : Option (String × String) :=
  match arg.toList.dropWhile (· ≠ '=') with
  | [] => none
  | _ :: value =>
      some (String.ofList (arg.toList.takeWhile (· ≠ '=')), String.ofList value)

/-- The parameters whose value is not converted to a number. -/
def stringParameters : List String :=
  ["-layer_name", "-rn_type", "-mn_type", "-mem_ctrl", "-generate_tile", "-generator"]

def readValue (name valueStr : String) : Except ConfigError Nat :=
  if stringParameters.contains name then .ok 0
  else (stoi valueStr).map fun value => (value % 2 ^ 32).toNat

/-- The check of the parameters that must be powers of two. -/
def checkPowerOf2 (name : String) (value : Nat) (argument : Argument) :
    Except ConfigError Argument :=
  if ispowerof2 value then .ok argument
  else .error (.exit ("Error: " ++ name ++ " must be power of 2"))

/-- The branch of the parameter `name`. -/
def readArgument (name valueStr : String) (value : Nat) : Except ConfigError Argument :=
  if name = "-num_ms" then checkPowerOf2 name value (.numMs value)
  else if name = "-ms_rows" then checkPowerOf2 name value (.msRows value)
  else if name = "-ms_cols" then checkPowerOf2 name value (.msCols value)
  else if name = "-dn_bw" then checkPowerOf2 name value (.dnBw value)
  else if name = "-rn_bw" then checkPowerOf2 name value (.rnBw value)
  else if name = "-accumulation_buffer" then .ok (.accumulationBuffer value)
  else if name = "-print_stats" then
    if value ≠ 0 ∧ value ≠ 1 then .error (.exit "Error: -print_stats only supports 0 or 1")
    else .ok (.printStats value)
  else if name = "-rn_type" then (getTypeReduceNetworkType valueStr).map .rnType
  else if name = "-mn_type" then (getTypeMultiplierNetworkType valueStr).map .mnType
  else if name = "-mem_ctrl" then (getTypeMemoryControllerType valueStr).map .memCtrl
  else if name = "-layer_name" then .ok (.layerName valueStr)
  else if name = "-M" then .ok (.M value)
  else if name = "-N" then .ok (.N value)
  else if name = "-K" then .ok (.K value)
  else if name = "-T_M" then .ok (.tM value)
  else if name = "-T_N" then .ok (.tN value)
  else if name = "-T_K" then .ok (.tK value)
  else if name = "-generate_tile" then .ok (.generateTile (parseTileGeneratorTarget valueStr))
  else if name = "-generator" then .ok (.generator (parseTileGenerator valueStr))
  else .error (.exit ("Error: parameter " ++ name ++ " does not exist"))

def parseArgument (arg : String) : Except ConfigError Argument :=
  match splitArgument arg with
  | none => .error (.exit ("Error: parameter " ++ arg ++ " does not exist"))
  | some (name, valueStr) => do
      let value ← readValue name valueStr
      readArgument name valueStr value

/-- One round of the loop. -/
def configArgument (params : Parameters) (arg : String) : Except ConfigError Parameters :=
  (parseArgument arg).map (assign params)

/-- `configDenseGEMMParameters`: the first two arguments are the program and the command. -/
def configDenseGEMMParameters (argv : List String) (params : Parameters) :
    Except ConfigError Parameters :=
  (argv.drop 2).foldlM configArgument params

/-! ## Valid arguments -/

/-- The name of an argument: what stands before its first `=`. -/
def argumentName (arg : String) : String :=
  ((splitArgument arg).map Prod.fst).getD arg

theorem checkPowerOf2_eq {name : String} {value : Nat} {argument a : Argument}
    (h : checkPowerOf2 name value argument = .ok a) : argument = a := by
  unfold checkPowerOf2 at h
  split at h
  · exact Except.ok.inj h
  · exact absurd h (by simp)

theorem exists_of_map {α β : Type*} {f : α → β} {x : Except ConfigError α} {b : β}
    (h : x.map f = .ok b) : ∃ a, f a = b := by
  cases x with
  | error e => exact absurd h (by simp [Except.map])
  | ok a => exact ⟨a, Except.ok.inj h⟩

/-- One branch of the chain of names. -/
theorem named_branch {name key : String} {x y : Except ConfigError Argument} {a : Argument}
    (h : (if name = key then x else y) = .ok a)
    (hThen : name = key → x = .ok a → a.name = name) (hElse : y = .ok a → a.name = name) :
    a.name = name := by
  split at h
  · exact hThen ‹_› h
  · exact hElse h

theorem readArgument_name {name valueStr : String} {value : Nat} {a : Argument}
    (h : readArgument name valueStr value = .ok a) : a.name = name := by
  -- the parameters that must be powers of two
  iterate 5
    refine named_branch h (fun hName h => by rw [← checkPowerOf2_eq h, hName]; rfl) fun h => ?_
  refine named_branch h (fun hName h => by rw [← Except.ok.inj h, hName]; rfl) fun h => ?_
  refine named_branch h (fun hName h => ?_) fun h => ?_
  · split at h
    · exact absurd h (by simp)
    · rw [← Except.ok.inj h, hName]
      rfl
  refine named_branch h (fun hName h => ?_) fun h => ?_
  · obtain ⟨_, rfl⟩ := exists_of_map h
    rw [hName]
    rfl
  refine named_branch h (fun hName h => ?_) fun h => ?_
  · obtain ⟨_, rfl⟩ := exists_of_map h
    rw [hName]
    rfl
  refine named_branch h (fun hName h => ?_) fun h => ?_
  · obtain ⟨_, rfl⟩ := exists_of_map h
    rw [hName]
    rfl
  iterate 9
    refine named_branch h (fun hName h => by rw [← Except.ok.inj h, hName]; rfl) fun h => ?_
  exact absurd h (by simp)

theorem parseArgument_name {arg : String} {a : Argument} (h : parseArgument arg = .ok a) :
    a.name = argumentName arg := by
  unfold parseArgument at h
  rw [argumentName]
  cases hSplit : splitArgument arg with
  | none => simp [hSplit] at h
  | some nameValue =>
      obtain ⟨name, valueStr⟩ := nameValue
      simp only [hSplit] at h
      cases hValue : readValue name valueStr with
      | error e => simp [hValue, bind, Except.bind] at h
      | ok value =>
          simp only [hValue, bind, Except.bind] at h
          exact readArgument_name h

/-- The state behind an argument that is valid. -/
def assignArgument (params : Parameters) (arg : String) : Parameters :=
  match parseArgument arg with
  | .ok a => assign params a
  | .error _ => params

theorem foldlM_configArgument {args : List String}
    (hValid : ∀ arg ∈ args, ∃ a, parseArgument arg = .ok a) (params : Parameters) :
    args.foldlM configArgument params = .ok (args.foldl assignArgument params) := by
  induction args generalizing params with
  | nil => rfl
  | cons arg args ih =>
      obtain ⟨a, ha⟩ := hValid arg List.mem_cons_self
      have hStep : configArgument params arg = .ok (assignArgument params arg) := by
        rw [configArgument, assignArgument, ha]
        rfl
      rw [List.foldlM_cons, hStep, List.foldl_cons]
      exact ih (fun other hMem => hValid other (List.mem_cons_of_mem _ hMem)) _

/-! ## What an argument leaves alone -/

theorem assignArgument_msRows {arg : String} (h : argumentName arg ≠ "-ms_rows")
    (params : Parameters) : (assignArgument params arg).msRows = params.msRows := by
  unfold assignArgument
  cases hParse : parseArgument arg with
  | error e => rfl
  | ok a =>
      rw [← parseArgument_name hParse] at h
      cases a with
      | msRows value => exact absurd rfl h
      | _ => rfl

theorem assignArgument_msSize {arg : String} (hNum : argumentName arg ≠ "-num_ms")
    (hCols : argumentName arg ≠ "-ms_cols") (params : Parameters) :
    (assignArgument params arg).msSize = params.msSize := by
  unfold assignArgument
  cases hParse : parseArgument arg with
  | error e => rfl
  | ok a =>
      rw [← parseArgument_name hParse] at hNum hCols
      cases a with
      | numMs value => exact absurd rfl hNum
      | msCols value => exact absurd rfl hCols
      | _ => rfl

/-- The parameters apart from `ms_size`. -/
def others (params : Parameters) : Parameters :=
  { params with msSize := 0 }

theorem others_assignArgument (params : Parameters) (arg : String) :
    others (assignArgument params arg) = others (assignArgument (others params) arg) := by
  unfold assignArgument
  cases parseArgument arg with
  | error e => rfl
  | ok a => cases a <;> rfl

/-- Arguments with different names write different parameters, apart from `ms_size`. -/
theorem others_assign_comm {a b : Argument} (h : a.name ≠ b.name) (params : Parameters) :
    others (assign (others (assign params a)) b) =
      others (assign (others (assign params b)) a) := by
  cases a <;> cases b <;> first | rfl | exact absurd rfl h

theorem others_assignArgument_comm {x y : String} (h : argumentName x ≠ argumentName y)
    (params : Parameters) :
    others (assignArgument (others (assignArgument params x)) y) =
      others (assignArgument (others (assignArgument params y)) x) := by
  unfold assignArgument
  cases hx : parseArgument x with
  | error e =>
      cases parseArgument y with
      | error e => rfl
      | ok b => cases b <;> rfl
  | ok a =>
      cases hy : parseArgument y with
      | error e => cases a <;> rfl
      | ok b =>
          rw [← parseArgument_name hx, ← parseArgument_name hy] at h
          exact others_assign_comm h params

/-! ## The order of the arguments -/

/-- An argument for a parameter and its value is in the list. -/
def Given (args : List String) (a : Argument) : Prop :=
  ∃ arg ∈ args, parseArgument arg = .ok a

/-- Every argument is valid and no parameter is given twice. -/
structure ValidArguments (args : List String) : Prop where
  valid : ∀ arg ∈ args, ∃ a, parseArgument arg = .ok a
  distinct : (args.map argumentName).Nodup

/-- The command line of a dense GEMM. -/
def commandLine (args : List String) : List String :=
  "./stonne" :: "-DenseGEMM" :: args

/-- The arguments may come in any order, and `ms_size` is that of the mesh if both of its edges
are given. -/
structure OrderIndependent (params : Parameters) (args : List String) : Prop where
  sameParameters : ∀ args' : List String, args'.Perm args →
    configDenseGEMMParameters (commandLine args') params =
      configDenseGEMMParameters (commandLine args) params
  sizeOfMesh : ∀ rows cols, Given args (.msRows rows) → Given args (.msCols cols) →
    ∀ result, configDenseGEMMParameters (commandLine args) params = .ok result →
      result.msSize = uint (rows * cols)

/-- When the columns are given, the other sources of `ms_size` yield what the columns yield
with the rows that are configured before the first argument. -/
def SizesAgree (params : Parameters) (args : List String) : Prop :=
  ∀ cols, Given args (.msCols cols) →
    (∀ rows, Given args (.msRows rows) → uint (rows * cols) = uint (params.msRows * cols)) ∧
      ∀ size, Given args (.numMs size) → size = uint (params.msRows * cols)

theorem config_eq {args : List String} (h : ValidArguments args) (params : Parameters) :
    configDenseGEMMParameters (commandLine args) params =
      .ok (args.foldl assignArgument params) :=
  foldlM_configArgument h.valid params

theorem ValidArguments.perm {args args' : List String} (h : ValidArguments args)
    (hPerm : args'.Perm args) : ValidArguments args' where
  valid arg hMem := h.valid arg (hPerm.mem_iff.mp hMem)
  distinct := (hPerm.map argumentName).nodup_iff.mpr h.distinct

theorem others_foldl {args args' : List String} (h : ValidArguments args)
    (hPerm : args.Perm args') (params : Parameters) :
    others (args.foldl assignArgument params) = others (args'.foldl assignArgument params) := by
  refine @foldl_perm _ _ _ _ _ (fun t arg => others (assignArgument t arg))
    others_assignArgument _ _ hPerm (fun x hx y hy t => ?_) params
  rcases eq_or_ne x y with rfl | hOther
  · rfl
  · apply others_assignArgument_comm
    exact fun hSame => hOther (List.inj_on_of_nodup_map h.distinct hx hy hSame)

/-- Two runs that agree on `ms_size` agree. -/
theorem eq_of_others {p q : Parameters} (h : others p = others q) (hSize : p.msSize = q.msSize) :
    p = q := by
  have hp : p = { others p with msSize := p.msSize } := rfl
  rw [hp, h, hSize]
  rfl

section

variable {params : Parameters} {args : List String}

theorem given_name {a : Argument} (h : Given args a) :
    ∃ arg ∈ args, argumentName arg = a.name ∧ parseArgument arg = .ok a := by
  obtain ⟨arg, hMem, hParse⟩ := h
  exact ⟨arg, hMem, (parseArgument_name hParse).symm, hParse⟩

/-- Any two arguments with one name are the same argument. -/
theorem ValidArguments.eq_of_name (h : ValidArguments args) {x y : String} (hx : x ∈ args)
    (hy : y ∈ args) (hName : argumentName x = argumentName y) : x = y :=
  List.inj_on_of_nodup_map h.distinct hx hy hName

theorem SizesAgree.keeps (h : SizesAgree params args) {cols : Nat}
    (hCols : Given args (.msCols cols)) {arg : String} (hMem : arg ∈ args) {s : Parameters}
    (hRows : uint (s.msRows * cols) = uint (params.msRows * cols)) :
    uint ((assignArgument s arg).msRows * cols) = uint (params.msRows * cols) := by
  cases hParse : parseArgument arg with
  | error e =>
      rw [assignArgument, hParse]
      exact hRows
  | ok a =>
      rw [assignArgument, hParse]
      cases a with
      | msRows rows => exact (h cols hCols).1 rows ⟨arg, hMem, hParse⟩
      | _ => exact hRows

/-- Once an argument has written `ms_size`, every later one writes the same. -/
theorem SizesAgree.keepsSize (h : SizesAgree params args) (hArgs : ValidArguments args)
    {cols : Nat} (hCols : Given args (.msCols cols)) {arg : String} (hMem : arg ∈ args)
    {s : Parameters} (hRows : uint (s.msRows * cols) = uint (params.msRows * cols))
    (hSize : s.msSize = uint (params.msRows * cols)) :
    (assignArgument s arg).msSize = uint (params.msRows * cols) := by
  obtain ⟨argCols, hMemCols, hName, hParseCols⟩ := given_name hCols
  cases hParse : parseArgument arg with
  | error e =>
      rw [assignArgument, hParse]
      exact hSize
  | ok a =>
      rw [assignArgument, hParse]
      cases a with
      | numMs size => exact (h cols hCols).2 size ⟨arg, hMem, hParse⟩
      | msCols cols' =>
          have hSame : arg = argCols :=
            hArgs.eq_of_name hMem hMemCols ((parseArgument_name hParse).symm.trans hName.symm)
          rw [hSame, hParseCols] at hParse
          cases hParse
          exact hRows
      | _ => exact hSize

/-- When the sources of `ms_size` agree, every order of the arguments yields their value. -/
theorem SizesAgree.size (h : SizesAgree params args) (hArgs : ValidArguments args)
    {cols : Nat} (hCols : Given args (.msCols cols)) {args' : List String}
    (hPerm : args'.Perm args) :
    (args'.foldl assignArgument params).msSize = uint (params.msRows * cols) := by
  obtain ⟨arg, hMem, hParse⟩ := hCols
  have hCols : Given args (.msCols cols) := ⟨arg, hMem, hParse⟩
  have hDone := @foldl_establishes _ _ assignArgument
    (fun s => uint (s.msRows * cols) = uint (params.msRows * cols))
    (fun s => uint (s.msRows * cols) = uint (params.msRows * cols) ∧
      s.msSize = uint (params.msRows * cols)) args' arg (hPerm.mem_iff.mpr hMem)
    (fun s hRows => ?_) (fun y hy s hRows => h.keeps hCols (hPerm.mem_iff.mp hy) hRows)
    (fun y hy s hs => ⟨h.keeps hCols (hPerm.mem_iff.mp hy) hs.1,
      h.keepsSize hArgs hCols (hPerm.mem_iff.mp hy) hs.1 hs.2⟩) params rfl
  · exact hDone.2
  · rw [assignArgument, hParse]
    exact ⟨hRows, hRows⟩

/-- An argument of the list that is not the one of a parameter has another name. -/
theorem ValidArguments.name_ne (hArgs : ValidArguments args) {a : Argument} {x y : String}
    (hParse : parseArgument x = .ok a) (hx : x ∈ args) (hy : y ∈ args) (hOther : y ≠ x) :
    argumentName y ≠ a.name := by
  intro hSame
  rw [parseArgument_name hParse] at hSame
  exact hOther (hArgs.eq_of_name hy hx hSame)

/-- A name that is in the list belongs to an argument with a value. -/
theorem ValidArguments.given_of_name (hArgs : ValidArguments args) {arg : String}
    (hMem : arg ∈ args) : ∃ a, a.name = argumentName arg ∧ Given args a := by
  obtain ⟨a, hParse⟩ := hArgs.valid arg hMem
  exact ⟨a, parseArgument_name hParse, arg, hMem, hParse⟩

theorem ValidArguments.ne_cols (hArgs : ValidArguments args)
    (hNone : ∀ cols, ¬Given args (.msCols cols)) {arg : String} (hMem : arg ∈ args) :
    argumentName arg ≠ "-ms_cols" := by
  intro hName
  obtain ⟨a, hSame, hGiven⟩ := hArgs.given_of_name hMem
  rw [hName] at hSame
  cases a with
  | msCols cols => exact hNone cols hGiven
  | _ => simp [Argument.name] at hSame

theorem ValidArguments.ne_num (hArgs : ValidArguments args)
    (hNone : ∀ size, ¬Given args (.numMs size)) {arg : String} (hMem : arg ∈ args) :
    argumentName arg ≠ "-num_ms" := by
  intro hName
  obtain ⟨a, hSame, hGiven⟩ := hArgs.given_of_name hMem
  rw [hName] at hSame
  cases a with
  | numMs size => exact hNone size hGiven
  | _ => simp [Argument.name] at hSame

/-- The value of `-num_ms` stays unless columns are assigned. -/
theorem size_of_num (hArgs : ValidArguments args) {size : Nat} (hSize : Given args (.numMs size))
    {xs : List String} (hSubset : ∀ x ∈ xs, x ∈ args)
    (hNoCols : ∀ x ∈ xs, argumentName x ≠ "-ms_cols")
    (hNum : ∀ x, parseArgument x = .ok (.numMs size) → x ∈ args → x ∈ xs)
    (s : Parameters) : (xs.foldl assignArgument s).msSize = size := by
  obtain ⟨arg, hMem, hParse⟩ := hSize
  refine @foldl_writes _ _ _ assignArgument (·.msSize) xs arg size (hNum arg hParse hMem)
    (fun t => ?_) (fun y hy hOther t => ?_) s
  · rw [assignArgument, hParse]
    rfl
  · exact assignArgument_msSize (hArgs.name_ne hParse hMem (hSubset y hy) hOther)
      (hNoCols y hy) t

/-- Without columns only `-num_ms` writes `ms_size`. -/
theorem size_of_no_cols (hArgs : ValidArguments args)
    (hNone : ∀ cols, ¬Given args (.msCols cols)) {args' : List String}
    (hPerm : args'.Perm args) :
    (args'.foldl assignArgument params).msSize = (args.foldl assignArgument params).msSize := by
  by_cases hNum : ∃ size, Given args (.numMs size)
  · obtain ⟨size, hSize⟩ := hNum
    rw [size_of_num hArgs hSize (fun x hx => hPerm.mem_iff.mp hx)
        (fun x hx => hArgs.ne_cols hNone (hPerm.mem_iff.mp hx))
        (fun x _ hx => hPerm.mem_iff.mpr hx),
      size_of_num hArgs hSize (fun x hx => hx) (fun x hx => hArgs.ne_cols hNone hx)
        (fun x _ hx => hx)]
  · push Not at hNum
    have hKept : ∀ xs : List String, (∀ x ∈ xs, x ∈ args) →
        (xs.foldl assignArgument params).msSize = params.msSize := fun xs hSubset =>
      foldl_keeps (fun x hx s => assignArgument_msSize (hArgs.ne_num hNum (hSubset x hx))
        (hArgs.ne_cols hNone (hSubset x hx)) s) params
    rw [hKept args' fun x hx => hPerm.mem_iff.mp hx, hKept args fun x hx => hx]

/-- Agreeing sources of `ms_size` make the order irrelevant. -/
theorem SizesAgree.independent (h : SizesAgree params args) (hArgs : ValidArguments args) :
    OrderIndependent params args where
  sameParameters args' hPerm := by
    rw [config_eq (hArgs.perm hPerm), config_eq hArgs]
    have hOthers := others_foldl hArgs hPerm.symm params
    have hSize : (args'.foldl assignArgument params).msSize =
        (args.foldl assignArgument params).msSize := by
      by_cases hCols : ∃ cols, Given args (.msCols cols)
      · obtain ⟨cols, hCols⟩ := hCols
        rw [h.size hArgs hCols hPerm, h.size hArgs hCols (List.Perm.refl args)]
      · push Not at hCols
        exact size_of_no_cols hArgs hCols hPerm
    rw [eq_of_others hOthers.symm hSize]
  sizeOfMesh rows cols hRows hCols result hResult := by
    rw [config_eq hArgs] at hResult
    cases hResult
    rw [h.size hArgs hCols (List.Perm.refl args), (h cols hCols).1 rows hRows]

/-- An order of the arguments whose run computes `ms_size` from the first rows: the rows come
last and the columns before them. -/
theorem size_of_first_rows {cols : Nat} (hCols : Given args (.msCols cols)) :
    ∃ args' : List String, args'.Perm args ∧
      (args'.foldl assignArgument params).msSize = uint (params.msRows * cols) := by
  obtain ⟨arg, hMem, hParse⟩ := hCols
  let isRows : String → Bool := fun x => argumentName x == "-ms_rows"
  let rest := args.erase arg
  refine ⟨rest.filter (fun x => !isRows x) ++ arg :: rest.filter isRows, ?_, ?_⟩
  · have hSplit : (rest.filter (fun x => !isRows x) ++ rest.filter isRows).Perm rest :=
      List.perm_append_comm.trans (List.filter_append_perm isRows rest)
    exact (List.perm_middle.trans (hSplit.cons arg)).trans (List.perm_cons_erase hMem).symm
  · have hFirst : ((rest.filter fun x => !isRows x).foldl assignArgument params).msRows =
        params.msRows := by
      refine foldl_keeps (fun x hx s => assignArgument_msRows ?_ s) params
      simpa [isRows] using (List.mem_filter.mp hx).2
    have hLast : ∀ s, ((rest.filter isRows).foldl assignArgument s).msSize = s.msSize := by
      refine foldl_keeps fun x hx s => ?_
      have hName : argumentName x = "-ms_rows" := by
        simpa [isRows] using (List.mem_filter.mp hx).2
      exact assignArgument_msSize (by simp [hName]) (by simp [hName]) s
    rw [List.foldl_append, List.foldl_cons, hLast, assignArgument, hParse]
    simp only [assign, hFirst]

/-- An order in which the columns come last. -/
theorem size_of_cols_last (hArgs : ValidArguments args) {rows cols : Nat}
    (hRows : Given args (.msRows rows)) (hCols : Given args (.msCols cols)) :
    ∃ args' : List String, args'.Perm args ∧
      (args'.foldl assignArgument params).msSize = uint (rows * cols) := by
  obtain ⟨arg, hMem, hParse⟩ := hCols
  obtain ⟨argRows, hMemRows, hParseRows⟩ := hRows
  refine ⟨args.erase arg ++ [arg], ?_, ?_⟩
  · exact (List.perm_append_singleton arg _).trans (List.perm_cons_erase hMem).symm
  · have hOther : argRows ≠ arg := by
      rintro rfl
      rw [hParse] at hParseRows
      cases hParseRows
    have hLast : ((args.erase arg).foldl assignArgument params).msRows = rows := by
      refine @foldl_writes _ _ _ assignArgument (·.msRows) _ argRows rows
        ((List.mem_erase_of_ne hOther).mpr hMemRows) (fun t => ?_) (fun y hy hy' t => ?_) params
      · rw [assignArgument, hParseRows]
        rfl
      · exact assignArgument_msRows
          (hArgs.name_ne hParseRows hMemRows (List.mem_of_mem_erase hy) hy') t
    rw [List.foldl_append, List.foldl_cons, List.foldl_nil, assignArgument, hParse]
    simp only [assign, hLast]

/-- An order in which the columns come first. -/
theorem size_of_cols_first (hArgs : ValidArguments args) {cols size : Nat}
    (hCols : Given args (.msCols cols)) (hSize : Given args (.numMs size)) :
    ∃ args' : List String, args'.Perm args ∧
      (args'.foldl assignArgument params).msSize = size := by
  obtain ⟨arg, hMem, hParse⟩ := hCols
  have hNodup : args.Nodup := hArgs.distinct.of_map argumentName
  refine ⟨arg :: args.erase arg, (List.perm_cons_erase hMem).symm, ?_⟩
  rw [List.foldl_cons]
  refine size_of_num hArgs hSize (fun x hx => List.mem_of_mem_erase hx) (fun x hx => ?_)
    (fun x hx hMemNum => ?_) _
  · exact hArgs.name_ne hParse hMem (List.mem_of_mem_erase hx) (hNodup.mem_erase_iff.mp hx).1
  · have hOther : x ≠ arg := by
      rintro rfl
      rw [hParse] at hx
      cases hx
    exact (List.mem_erase_of_ne hOther).mpr hMemNum

/-- The order of the arguments is irrelevant exactly when the sources of `ms_size` agree. -/
theorem orderIndependent_iff (params : Parameters) {args : List String}
    (hArgs : ValidArguments args) :
    OrderIndependent params args ↔ SizesAgree params args := by
  refine ⟨fun h cols hCols => ?_, fun h => h.independent hArgs⟩
  have hSame : ∀ args' : List String, args'.Perm args →
      (args'.foldl assignArgument params).msSize = (args.foldl assignArgument params).msSize := by
    intro args' hPerm
    have hRun := h.sameParameters args' hPerm
    rw [config_eq (hArgs.perm hPerm), config_eq hArgs] at hRun
    rw [Except.ok.inj hRun]
  obtain ⟨first, hFirst, hFirstSize⟩ := @size_of_first_rows params _ _ hCols
  rw [hSame first hFirst] at hFirstSize
  refine ⟨fun rows hRows => ?_, fun size hSize => ?_⟩
  · obtain ⟨last, hLast, hLastSize⟩ := @size_of_cols_last params _ hArgs _ _ hRows hCols
    rw [← hLastSize, hSame last hLast, hFirstSize]
  · obtain ⟨before, hBefore, hBeforeSize⟩ := @size_of_cols_first params _ hArgs _ _ hCols hSize
    rw [← hBeforeSize, hSame before hBefore, hFirstSize]

theorem parse_rows : parseArgument "-ms_rows=8" = .ok (.msRows 8) := by decide +kernel

theorem parse_cols : parseArgument "-ms_cols=8" = .ok (.msCols 8) := by decide +kernel

theorem mesh_valid : ValidArguments ["-ms_cols=8", "-ms_rows=8"] where
  valid arg hMem := by
    rcases List.mem_cons.mp hMem with rfl | hMem
    · exact ⟨_, parse_cols⟩
    · rw [List.mem_singleton.mp hMem]
      exact ⟨_, parse_rows⟩
  distinct := by decide +kernel

/-- The edges of a mesh of eight rows and eight columns. -/
theorem orderIndependent_iff_mesh :
    OrderIndependent {} ["-ms_cols=8", "-ms_rows=8"] ↔
      SizesAgree {} ["-ms_cols=8", "-ms_rows=8"] :=
  orderIndependent_iff {} mesh_valid

/-- Columns before rows: the size is computed with the default of no rows. -/
theorem columns_before_rows :
    ¬∀ (params : Parameters) (args : List String),
      ValidArguments args → OrderIndependent params args := by
  intro h
  have hMesh := h {} _ mesh_valid
  have hSwapped := hMesh.sameParameters ["-ms_rows=8", "-ms_cols=8"] (List.Perm.swap _ _ _)
  exact absurd hSwapped (by decide +kernel)

end

end CommandLine

end Stonne
