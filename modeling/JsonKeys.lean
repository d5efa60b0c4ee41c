import JsonKeys.Main
import JsonKeys.Proofs.Value.Position
import JsonKeys.Proofs.Except
import JsonKeys.Proofs.Text.Decimal
import JsonKeys.Proofs.Failure
import JsonKeys.Proofs.Place.Target
import JsonKeys.Proofs.Place.Reading
import JsonKeys.Proofs.Place.Lens
import JsonKeys.Proofs.Place.Locality
import JsonKeys.Proofs.Place.Agreement
import JsonKeys.Proofs.Place.Subscript
import JsonKeys.Proofs.KeyExpr.KeyNumber
import JsonKeys.Proofs.Outline.FirstSeen
import JsonKeys.Proofs.Outline.Deep
import JsonKeys.Proofs.Value.Frame
import JsonKeys.Proofs.Value.Distinct
import JsonKeys.Proofs.Value.Leaves
import JsonKeys.Proofs.Outline.Fields
import JsonKeys.Proofs.Record.Flat
import JsonKeys.Proofs.Record.FlatNames
import JsonKeys.Proofs.Query.Records
import JsonKeys.Proofs.Query.Resolution
import JsonKeys.Proofs.Query.Halting
import JsonKeys.Proofs.KeyExpr.Dotted
import JsonKeys.Proofs.KeyExpr.Abbreviation
import JsonKeys.Proofs.Query.Abbreviation
import JsonKeys.Proofs.Number.Place
import JsonKeys.Proofs.Outline.Levels
import JsonKeys.Proofs.Profile.Extent
import JsonKeys.Proofs.Profile.Summary
import JsonKeys.Proofs.Profile.Paths
import JsonKeys.Proofs.Query.Lenient
import JsonKeys.Proofs.Query.Deep
import JsonKeys.Proofs.Record.Table
import JsonKeys.Proofs.Query.Table
import JsonKeys.Proofs.Query.Origins
import JsonKeys.Proofs.Place.ByName
import JsonKeys.Proofs.Path.Words
import JsonKeys.Proofs.Path.RoundTrip
import JsonKeys.Proofs.Place.Removal
import JsonKeys.Proofs.Place.Splice
import JsonKeys.Proofs.KeyExpr.Meaning
import JsonKeys.Proofs.Record.Reads
import JsonKeys.Proofs.Record.Selection
import JsonKeys.Proofs.Value.Without
import JsonKeys.Proofs.Place.Pruning
import JsonKeys.Proofs.Record.Pruning
import JsonKeys.Proofs.Place.SubscriptGrammar
import JsonKeys.Proofs.Number.Value
import JsonKeys.Proofs.Number.Nearest
import JsonKeys.Proofs.Display.Scan
import JsonKeys.Proofs.Display.Color
import JsonKeys.Proofs.Display.JsonText
import JsonKeys.Proofs.Display.Bytes
import JsonKeys.Proofs.Display.Report
import JsonKeys.Proofs.Outline.Waiting
import JsonKeys.Proofs.Place.Checked
import JsonKeys.Proofs.Value.Short
import JsonKeys.Proofs.Place.Trapless
import JsonKeys.Proofs.Place.TraplessEdit
import JsonKeys.Proofs.Outline.Below
