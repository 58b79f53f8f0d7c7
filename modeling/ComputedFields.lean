import ComputedFields.CommandLine
import ComputedFields.Main
import ComputedFields.Proofs.Calendar
import ComputedFields.Proofs.Dependencies
import ComputedFields.Proofs.EarliestOrder
import ComputedFields.Proofs.FirstError
import ComputedFields.Proofs.Height
import ComputedFields.Proofs.Inlining
import ComputedFields.Proofs.InputOrder
import ComputedFields.Proofs.ReportShape
import ComputedFields.Proofs.Sightings
import ComputedFields.Proofs.Staleness
import ComputedFields.Proofs.IsoText
import ComputedFields.Proofs.Tiling
import ComputedFields.Session
import ComputedFields.Proofs.Writing
import ComputedFields.Proofs.Moving
import ComputedFields.Proofs.Numerals
import ComputedFields.Proofs.Offers
import ComputedFields.Proofs.Comparing
import ComputedFields.Proofs.MonthShifts
import ComputedFields.Proofs.IsoRoundTrip
import ComputedFields.Proofs.ReadingOrder
import ComputedFields.Proofs.DayShifts
import ComputedFields.Proofs.Strictness
import ComputedFields.Proofs.LookupFailures
import ComputedFields.Proofs.CatalogFaults
import ComputedFields.Proofs.JsonText
import ComputedFields.Proofs.Layouts
import ComputedFields.Proofs.Replacing
import ComputedFields.Proofs.SExpressions
