import SqlCompose.Text.Alphanumeric
import SqlCompose.Text.Blank
import SqlCompose.Text.Quoted
import SqlCompose.Select.Compose
import SqlCompose.Print.Query
import SqlCompose.Config.File
import SqlCompose.Proofs.Composed
import SqlCompose.Proofs.Selectors
import SqlCompose.Proofs.Columns
import SqlCompose.Proofs.Predicates
import SqlCompose.Proofs.Frame
import SqlCompose.Proofs.Reuse
import SqlCompose.Proofs.OwnSelectors
import SqlCompose.Proofs.Ingredients
import SqlCompose.Proofs.InStep
import SqlCompose.Proofs.Parentheses
import SqlCompose.Proofs.JoinRuns
import SqlCompose.Proofs.ResultNames
import SqlCompose.Proofs.Declarations
import SqlCompose.Proofs.Equality
import SqlCompose.Proofs.BaseTables
import SqlCompose.Proofs.Reading.Grammar
import SqlCompose.Proofs.Reading.Printed
import SqlCompose.Proofs.Reading.Arithmetic
import SqlCompose.Proofs.Reading.Literals
import SqlCompose.Proofs.Reading.Identifiers
import SqlCompose.Proofs.Reading.Comments
import SqlCompose.Proofs.Isolation
import SqlCompose.Proofs.AliasRuns
import SqlCompose.Proofs.Printouts
import SqlCompose.Proofs.Json.Configurations
import SqlCompose.Proofs.FixedTables
import SqlCompose.Proofs.KeyedJoins
import SqlCompose.Proofs.Opposites
import SqlCompose.Proofs.Unwrapping
import SqlCompose.Proofs.Attachment
import SqlCompose.Proofs.Lookups
import SqlCompose.Proofs.Provided
import SqlCompose.Proofs.Conjunctions
import SqlCompose.Proofs.Carried
import SqlCompose.Proofs.AcceptedAgain
import SqlCompose.Proofs.Required
import SqlCompose.Proofs.Stars
import SqlCompose.Proofs.Recurring
import SqlCompose.Proofs.Repeated
import SqlCompose.Proofs.Steady
import SqlCompose.Proofs.DerivedKeys
import SqlCompose.Proofs.Relinking
import SqlCompose.Proofs.Appearances
import SqlCompose.Proofs.Json.Rearranged
