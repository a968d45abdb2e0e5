import Skepticoin.Lib.Guard

namespace Skepticoin

-- The exceptions that the modelled code can raise, one constructor for each
-- class. Messages are kept where the source builds them.
inductive PyError where
  | ValidationError (message : String)
  | ValidateTransactionError (message : String)
  | ValidatePOWError (message : String)
  | ValidateBlockHeaderError (message : String)
  | ValidateBlockError (message : String)
  | DeserializationError (message : String)
  | SerializationTruncationError (message : String)
  | ValueError (message : String)
  | Exception (message : String)
  | KeyError
  | IndexError
  | AssertionError
  | AttributeError
  | NotImplementedError
  | OverflowError
  | ZeroDivisionError
  | RecursionError
  | StructError
  | IntegrityError
  | OperationalError
  | MalformedPointError
  deriving DecidableEq, Repr

abbrev Py := Except PyError

-- ValidationError and its subclasses.
def PyError.is_validation_error : PyError → Bool
  | .ValidationError _ | .ValidateTransactionError _ | .ValidatePOWError _
  | .ValidateBlockHeaderError _ | .ValidateBlockError _ => true
  | _ => false

-- What an `except ValueError` clause catches.
def PyError.is_value_error : PyError → Bool
  | .ValueError _ => true
  | _ => false

-- What an `except ValidateTransactionError` clause catches.
def PyError.is_validate_transaction_error : PyError → Bool
  | .ValidateTransactionError _ => true
  | _ => false

end Skepticoin
